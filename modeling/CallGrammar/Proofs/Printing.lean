import CallGrammar.Proofs.Meaning
import CallGrammar.Proofs.Normalization
import Mathlib.Data.List.Chain

namespace CallGrammar

open CallGrammar.Expr (Position parens printAt printSeparated quantified normalAt)
open CallGrammar.Lexer (Ends Lexes ends_cons isWordChar_of_ofChar? lexes_nil lexes_word)
open String (utf8Len)

def TokenKind.opens (k : TokenKind) : Bool := k = .parenOpen || k = .pipe

def TokenKind.closes (k : TokenKind) : Bool := k = .parenClose || k = .pipe

def Gapless (ks : List TokenKind) : Prop := ks.IsChain fun j k => ¬ (j.opens = true ∧ k.closes = true)

theorem Gapless.inner {ks : List TokenKind} {j k : TokenKind} (h : Gapless (j :: (ks ++ [k]))) : Gapless ks :=
  h.infix ⟨[j], [k], rfl⟩

theorem not_gapless_pair {j k : TokenKind} (hj : j.opens = true) (hk : k.closes = true) : ¬ Gapless [j, k] := by
  simp [Gapless, hj, hk]

structure Solid (ks : List TokenKind) : Prop where
  gapless : Gapless ks
  head {k : TokenKind} : k ∈ ks.head? → k.closes = false
  last {k : TokenKind} : k ∈ ks.getLast? → k.opens = false
  ne_nil : ks ≠ []

namespace Solid

variable {u v : List TokenKind} {k : TokenKind}

theorem singleton (ho : k.opens = false) (hc : k.closes = false) : Solid [k] where
  gapless := .singleton k
  head hk := by rwa [← Option.some.inj hk]
  last hk := by rwa [← Option.some.inj hk]
  ne_nil := by simp

theorem gapless_cons (h : Solid u) (k : TokenKind) : Gapless (k :: u) := by
  refine List.isChain_cons.mpr ⟨fun j hj => ?_, h.gapless⟩
  rw [h.head hj]
  simp

theorem gapless_append (hu : Solid u) (hv : Gapless v) : Gapless (u ++ v) := by
  refine .append hu.gapless hv fun j hj k _ => ?_
  rw [hu.last hj]
  simp

theorem append (hu : Solid u) (hv : Gapless v) (hne : v ≠ []) (hlast : ∀ k ∈ v.getLast?, k.opens = false) :
    Solid (u ++ v) where
  gapless := hu.gapless_append hv
  head {k} hk := by
    rw [List.head?_append_of_ne_nil _ hu.ne_nil] at hk
    exact hu.head hk
  last {k} hk := by
    rw [List.getLast?_append_of_ne_nil _ hne] at hk
    exact hlast k hk
  ne_nil := List.append_ne_nil_of_left_ne_nil hu.ne_nil v

theorem concat (hu : Solid u) (hk : k.opens = false) : Solid (u ++ [k]) :=
  hu.append (.singleton k) (by simp) (by simpa using hk)

theorem around (h : Solid u) (j k : TokenKind) : Gapless (j :: (u ++ [k])) := by
  have hclosed : Gapless (u ++ [k]) := h.gapless_append (.singleton k)
  refine List.isChain_cons.mpr ⟨fun i hi => ?_, hclosed⟩
  rw [List.head?_append_of_ne_nil _ h.ne_nil] at hi
  rw [h.head hi]
  simp

theorem group (h : Solid u) : Solid (.parenOpen :: (u ++ [.parenClose])) where
  gapless := h.around _ _
  head hk := by rw [← Option.some.inj hk]; rfl
  last {k} hk := by
    rw [← List.cons_append, List.getLast?_concat] at hk
    rw [← Option.some.inj hk]
    rfl
  ne_nil := by simp

theorem join (hu : Solid u) (hv : Solid v) : Solid (u ++ .pipe :: v) :=
  hu.append (hv.gapless_cons _) (by simp) fun k hk => hv.last (by rwa [List.getLast?_cons_of_ne_nil hv.ne_nil] at hk)

end Solid

theorem Derives.solid {a : Symbol} {u : List TokenKind} (h : Derives a u) : Solid u := by
  induction h with
  | name => exact .singleton rfl rfl
  | aliased => exact ((Solid.singleton rfl rfl).concat rfl).concat rfl
  | group _ ih => exact ih.group
  | bare _ ih => exact ih
  | quantified q _ ih => exact ih.concat (by cases q <;> rfl)
  | last _ ih => exact ih
  | more _ _ ihe ihs => exact ihe.append ihs.gapless ihs.ne_nil fun _ => ihs.last
  | branch _ ih => exact ih
  | split _ _ ihs ihb => exact ihs.join ihb

def Shown (text : List Char) (ks : List TokenKind) : Prop :=
  ∀ offset, ∃ ts : List Token, ts.map (·.kind) = ks ∧ Lexes offset text ts

namespace Shown

variable {cs ds : List Char} {ks us : List TokenKind} {c : Char} {kind : TokenKind} {text rest : String}

theorem nil : Shown [] [] := fun offset => ⟨[], rfl, lexes_nil offset⟩

theorem word (h : IsWord text) : Shown text.toList [.ident] := fun offset => ⟨_, rfl, lexes_word h offset⟩

theorem blank (hc : isBlank c = true) (h : Shown cs ks) : Shown (c :: cs) ks := by
  intro offset
  obtain ⟨ts, hts, hlex⟩ := h (offset + c.utf8Size)
  exact ⟨ts, hts, hlex.blank hc⟩

theorem symbol (hc : TokenKind.ofChar? c = some kind) (h : Shown cs ks) : Shown (c :: cs) (kind :: ks) := by
  intro offset
  obtain ⟨ts, rfl, hlex⟩ := h (offset + c.utf8Size)
  exact ⟨_, rfl, hlex.symbol hc⟩

theorem append (h : Shown cs ks) (h' : Shown ds us) (hds : Ends ds) : Shown (cs ++ ds) (ks ++ us) := by
  intro offset
  obtain ⟨ts, rfl, hlex⟩ := h offset
  obtain ⟨ts', rfl, hlex'⟩ := h' (offset + utf8Len cs)
  exact ⟨_, List.map_append, hlex.append hlex' hds⟩

theorem concat (h : Shown cs ks) (hc : TokenKind.ofChar? c = some kind) : Shown (cs ++ [c]) (ks ++ [kind]) :=
  h.append (nil.symbol hc) (ends_cons (isWordChar_of_ofChar? hc) [])

theorem group (h : Shown text.toList ks) : Shown (parens text).toList (.parenOpen :: (ks ++ [.parenClose])) := by
  rw [parens, String.append_assoc, String.toList_append, String.toList_append]
  exact symbol (c := '(') rfl (h.concat rfl)

theorem join (h : Shown text.toList ks) (hrest : Shown rest.toList us) :
    Shown (text ++ " " ++ rest).toList (ks ++ us) := by
  rw [String.toList_append, String.toList_append, List.append_assoc]
  exact h.append (hrest.blank rfl) (ends_cons rfl _)

theorem split (h : Shown text.toList ks) (hrest : Shown rest.toList us) :
    Shown (text ++ " | " ++ rest).toList (ks ++ .pipe :: us) := by
  rw [String.toList_append, String.toList_append, List.append_assoc]
  exact h.append (((hrest.blank rfl).symbol rfl).blank rfl) (ends_cons rfl _)

theorem term {t : Term} (h : t.Writable) : ∃ ks, Shown t.text.toList ks := by
  rw [Term.text]
  split
  · rw [String.toList_append, String.toList_append, List.append_assoc]
    exact ⟨_, (word h.name).append ((word h.callable).symbol rfl) (ends_cons rfl _)⟩
  · exact ⟨_, word h.name⟩

end Shown

def Told : Position → List TokenKind → Prop → Prop
  | .top, ks, P | .branch, ks, P =>
      ∀ j k : TokenKind, j.opens = true → k.closes = true → Gapless (j :: (ks ++ [k])) → P
  | .item, ks, P | .operand, ks, P => Gapless ks → P

namespace Told

variable {ks : List TokenKind} {es : List (Expr Term)} {P : Prop}

theorem of_gapless (h : Gapless ks → P) (pos : Position) : Told pos ks P := by
  cases pos with
  | top | branch => exact fun _ _ _ _ hgapless => h hgapless.inner
  | item | operand => exact h

theorem group (h : Told .top ks P) (pos : Position) : Told pos (.parenOpen :: (ks ++ [.parenClose])) P :=
  of_gapless (h _ _ rfl rfl) pos

theorem seq (hnil : es = [] → ks = []) (h : Gapless ks → ∀ e ∈ es, e.Full) : Told .branch ks (Expr.Full (.seq es)) := by
  intro j k hj hk hgapless
  refine .seq (fun hes => ?_) (h hgapless.inner)
  rw [hnil hes] at hgapless
  exact not_gapless_pair hj hk hgapless

end Told

theorem exists_shown_quantified {inner : Expr Term} (q : Quantifier)
    (h : ∃ ks, Shown (printAt .operand inner).toList ks ∧ Told .operand ks inner.Full) (pos : Position) :
    ∃ ks, Shown (quantified q.operator (printAt .operand inner) pos).toList ks ∧ Told pos ks (q.wrap inner).Full := by
  obtain ⟨ks, hshown, htold⟩ := h
  obtain ⟨c, hoperator, hkind⟩ := q.exists_char
  have hquantified : Shown (printAt .operand inner ++ q.operator).toList (ks ++ [q.kind]) := by
    rw [String.toList_append, hoperator]
    exact hshown.concat hkind
  have hfull : Gapless (ks ++ [q.kind]) → (q.wrap inner).Full := fun hgapless =>
    q.full_wrap (htold (List.IsChain.left_of_append hgapless))
  cases pos with
  | top | branch | item => exact ⟨_, hquantified, .of_gapless hfull _⟩
  | operand => exact ⟨_, hquantified.group, .group (.of_gapless hfull _) _⟩

mutual

theorem exists_shown (e : Expr Term) (h : ∀ t ∈ e.leaves, t.Writable) (pos : Position) :
    ∃ ks, Shown (printAt pos e).toList ks ∧ Told pos ks e.Full := by
  cases e with
  | term t =>
    obtain ⟨ks, hshown⟩ := Shown.term (h t List.mem_cons_self)
    exact ⟨ks, by cases pos <;> exact hshown, .of_gapless (fun _ => .term t) pos⟩
  | seq items =>
    obtain ⟨ks, hshown, hnil, hfull⟩ := exists_shown_items items h
    have htold : Told .branch ks (Expr.Full (.seq items)) := .seq hnil hfull
    cases pos with
    | top | branch => exact ⟨ks, hshown, htold⟩
    | item | operand => exact ⟨_, hshown.group, .group htold _⟩
  | alt branches =>
    obtain ⟨ks, hshown, htold⟩ := exists_shown_branches branches h
    cases pos with
    | top => exact ⟨ks, hshown, htold⟩
    | branch | item | operand => exact ⟨_, hshown.group, .group htold _⟩
  | star inner => exact exists_shown_quantified .star (exists_shown inner h .operand) pos
  | plus inner => exact exists_shown_quantified .plus (exists_shown inner h .operand) pos
  | optional inner => exact exists_shown_quantified .optional (exists_shown inner h .operand) pos

theorem exists_shown_items (es : List (Expr Term)) (h : ∀ t ∈ Expr.leavesAll es, t.Writable) :
    ∃ ks, Shown (printSeparated " " .item es).toList ks ∧ (es = [] → ks = []) ∧ (Gapless ks → ∀ e ∈ es, e.Full) := by
  match es with
  | [] => exact ⟨[], .nil, fun _ => rfl, fun _ => by simp⟩
  | [e] =>
    obtain ⟨ks, hshown, htold⟩ := exists_shown e (by simpa [Expr.leavesAll] using h) .item
    exact ⟨ks, hshown, by simp, fun hgapless => List.forall_mem_singleton.mpr (htold hgapless)⟩
  | e :: e' :: es =>
    obtain ⟨he, hes⟩ := List.forall_mem_append.mp h
    obtain ⟨ks, hshown, htold⟩ := exists_shown e he .item
    obtain ⟨us, hshown', _, hfull⟩ := exists_shown_items (e' :: es) hes
    refine ⟨ks ++ us, hshown.join hshown', by simp, fun hgapless => List.forall_mem_cons.mpr ⟨?_, ?_⟩⟩
    · exact htold (List.IsChain.left_of_append hgapless)
    · exact hfull (List.IsChain.right_of_append hgapless)

theorem exists_shown_branches (es : List (Expr Term)) (h : ∀ t ∈ Expr.leavesAll es, t.Writable) :
    ∃ ks, Shown (printSeparated " | " .branch es).toList ks ∧ Told .top ks (Expr.Full (.alt es)) := by
  match es with
  | [] => exact ⟨[], .nil, fun j k hj hk hgapless => absurd hgapless (by simp [Gapless, hj, hk])⟩
  | [e] =>
    obtain ⟨ks, hshown, htold⟩ := exists_shown e (by simpa [Expr.leavesAll] using h) .branch
    exact ⟨ks, hshown, fun j k hj hk hgapless => .alt (by simp) (by simpa using htold j k hj hk hgapless)⟩
  | e :: e' :: es =>
    obtain ⟨he, hes⟩ := List.forall_mem_append.mp h
    obtain ⟨ks, hshown, htold⟩ := exists_shown e he .branch
    obtain ⟨us, hshown', htold'⟩ := exists_shown_branches (e' :: es) hes
    refine ⟨ks ++ .pipe :: us, hshown.split hshown', fun j k hj hk hgapless => ?_⟩
    have hfirst : Gapless (j :: (ks ++ [.pipe])) := List.IsChain.infix hgapless ⟨[], us ++ [k], by simp⟩
    have hothers : Gapless (.pipe :: (us ++ [k])) := List.IsChain.infix hgapless ⟨j :: ks, [], by simp⟩
    obtain ⟨_, hfull⟩ := Expr.full_alt_iff.mp (htold' _ k rfl hk hothers)
    exact .alt (by simp) (List.forall_mem_cons.mpr ⟨htold j _ hj rfl hfirst, hfull⟩)

end

theorem full_of_parse_print {e : Expr Term} {p : Parsed} (hsize : e.print.utf8ByteSize < UInt32.size)
    (h : ∀ t ∈ e.leaves, t.Writable) (hp : parse none e.print = .ok p) : e.Full := by
  obtain ⟨ks, hshown, htold⟩ := exists_shown e h .top
  obtain ⟨ts, rfl, hlex⟩ := hshown 0
  rw [parse, lex_of_lexes hsize hlex] at hp
  exact htold _ _ rfl rfl ((derives_of_parseTokens hp).solid.around .parenOpen .parenClose)

def stacked : Expr Term :=
  .star (.plus (.seq [.seq [.term ⟨"é", "b"⟩, .alt [.alt [.term (.plain "c"), .term (.plain "é")]]],
    .optional (.star (.term (.plain "d")))]))

end CallGrammar
