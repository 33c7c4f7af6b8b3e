import CallGrammar.Expr.Printer
import CallGrammar.Proofs.Derivation
import CallGrammar.Proofs.Lexer

namespace CallGrammar

open CallGrammar.Expr (Position parens printAt printSeparated)
open CallGrammar.Lexer (Lexes ends_cons isWordChar_of_ofChar? lexes_nil lexes_word)
open String (utf8Len)

structure Term.Writable (t : Term) : Prop where
  name : IsWord t.name
  callable : IsWord t.callable

instance (t : Term) : Decidable t.Writable :=
  decidable_of_iff (IsWord t.name ∧ IsWord t.callable)
    ⟨fun ⟨hname, hcallable⟩ => ⟨hname, hcallable⟩, fun h => ⟨h.name, h.callable⟩⟩

namespace Expr

variable {α : Type}

def shape : Position → Expr α → Expr α
  | .top, .alt branches => .alt branches
  | .top, .seq items => .alt [.seq items]
  | .top, e => .alt [.seq [e]]
  | .branch, .seq items => .seq items
  | .branch, e => .seq [e]
  | .item, .seq items => .alt [.seq items]
  | .item, e => e
  | .operand, .term a => .term a
  | .operand, .alt branches => .alt branches
  | .operand, .seq items => .alt [.seq items]
  | .operand, e => .alt [.seq [e]]

mutual

def normalAt : Position → Expr α → Expr α
  | pos, .term a => shape pos (.term a)
  | pos, .seq items => shape pos (.seq (normalAll .item items))
  | pos, .alt branches => shape pos (.alt (normalAll .branch branches))
  | pos, .star inner => shape pos (.star (normalAt .operand inner))
  | pos, .plus inner => shape pos (.plus (normalAt .operand inner))
  | pos, .optional inner => shape pos (.optional (normalAt .operand inner))

def normalAll : Position → List (Expr α) → List (Expr α)
  | _, [] => []
  | pos, e :: es => normalAt pos e :: normalAll pos es

end

end Expr

open CallGrammar.Expr (mapAll normalAt normalAll)

inductive Phrase.Shows : Phrase → Position → Expr Term → Prop where
  | atom (e : Expr Mention) : Shows (.atom e) .operand (e.map (·.term))
  | item (e : Expr Mention) : Shows (.item e) .item (e.map (·.term))
  | sequence (items : List (Expr Mention)) : Shows (.sequence items) .branch (.seq (mapAll (·.term) items))
  | alternation (branches : List (Expr Mention)) : Shows (.alternation branches) .top (.alt (mapAll (·.term) branches))

def Spelled (pos : Position) (text : String) (e : Expr Term) : Prop :=
  ∀ offset, ∃ p ts, Phrase.Shows p pos e ∧ Reads p ts ∧ Lexes offset text.toList ts

def Quantifier.operator : Quantifier → String
  | .star => "*"
  | .plus => "+"
  | .optional => "?"

theorem Quantifier.exists_char (q : Quantifier) : ∃ c, q.operator.toList = [c] ∧ TokenKind.ofChar? c = some q.kind := by
  cases q with
  | star => exact ⟨'*', rfl, rfl⟩
  | plus => exact ⟨'+', rfl, rfl⟩
  | optional => exact ⟨'?', rfl, rfl⟩

theorem Quantifier.map_wrap {α β : Type} (q : Quantifier) (f : α → β) (e : Expr α) :
    (q.wrap e).map f = q.wrap (e.map f) := by
  cases q <;> rfl

namespace Spelled

variable {text rest : String} {e : Expr Term} {es : List (Expr Term)} {t : Term}

theorem term (h : t.Writable) : Spelled .operand t.text (.term t) := by
  intro offset
  obtain ⟨name, callable⟩ := t
  by_cases halias : name = callable
  · subst halias
    have htext : (Term.plain name).text = name := Term.text_plain name
    rw [Term.plain] at htext
    rw [htext]
    exact ⟨_, _, .atom (.term ⟨.plain name, _⟩), .name (t := ⟨.ident, _, name⟩) rfl, lexes_word h.name offset⟩
  · have htext : (Term.mk name callable).text.toList = name.toList ++ ':' :: callable.toList := by
      simp [Term.text, Term.isAliased, halias]
    rw [htext]
    exact ⟨_, _, .atom (.term ⟨⟨name, callable⟩, _⟩),
      .aliased (t := ⟨.ident, _, name⟩) (c := ⟨.colon, _, _⟩) (a := ⟨.ident, _, callable⟩) rfl rfl rfl,
      (lexes_word h.name offset).append ((lexes_word h.callable _).symbol rfl) (ends_cons rfl _)⟩

theorem bare (h : Spelled .operand text e) : Spelled .item text e := by
  intro offset
  obtain ⟨_, ts, ⟨_⟩, hread, hlex⟩ := h offset
  exact ⟨_, ts, .item _, .bare hread, hlex⟩

theorem quantified (q : Quantifier) (h : Spelled .operand text e) : Spelled .item (text ++ q.operator) (q.wrap e) := by
  intro offset
  obtain ⟨_, ts, ⟨_⟩, hread, hlex⟩ := h offset
  obtain ⟨c, hoperator, hkind⟩ := q.exists_char
  rw [String.toList_append, hoperator, ← q.map_wrap]
  exact ⟨_, _, .item _, .quantified q rfl hread,
    hlex.append ((lexes_nil _).symbol hkind) (ends_cons (isWordChar_of_ofChar? hkind) _)⟩

theorem last (h : Spelled .item text e) : Spelled .branch text (.seq [e]) := by
  intro offset
  obtain ⟨_, ts, ⟨_⟩, hread, hlex⟩ := h offset
  exact ⟨_, ts, .sequence [_], .last hread, hlex⟩

theorem more (h : Spelled .item text e) (hmore : Spelled .branch rest (.seq es)) :
    Spelled .branch (text ++ " " ++ rest) (.seq (e :: es)) := by
  intro offset
  obtain ⟨_, ts, ⟨_⟩, hread, hlex⟩ := h offset
  obtain ⟨_, us, ⟨_⟩, hread', hlex'⟩ := hmore (offset + utf8Len text.toList + ' '.utf8Size)
  rw [String.toList_append, String.toList_append, List.append_assoc]
  exact ⟨_, _, .sequence (_ :: _), .more hread hread', hlex.append (hlex'.blank rfl) (ends_cons rfl _)⟩

theorem branch (h : Spelled .branch text e) : Spelled .top text (.alt [e]) := by
  intro offset
  obtain ⟨_, ts, ⟨_⟩, hread, hlex⟩ := h offset
  exact ⟨_, ts, .alternation [.seq _], .branch hread, hlex⟩

theorem split (h : Spelled .branch text e) (hmore : Spelled .top rest (.alt es)) :
    Spelled .top (text ++ " | " ++ rest) (.alt (e :: es)) := by
  intro offset
  obtain ⟨_, ts, ⟨_⟩, hread, hlex⟩ := h offset
  obtain ⟨_, us, ⟨_⟩, hread', hlex'⟩ :=
    hmore (offset + utf8Len text.toList + ' '.utf8Size + '|'.utf8Size + ' '.utf8Size)
  rw [String.toList_append, String.toList_append, List.append_assoc]
  exact ⟨_, _, .alternation (.seq _ :: _), .split rfl hread hread',
    hlex.append (((hlex'.blank rfl).symbol rfl).blank rfl) (ends_cons rfl _)⟩

theorem group (h : Spelled .top text e) : Spelled .operand (parens text) e := by
  intro offset
  obtain ⟨_, ts, ⟨_⟩, hread, hlex⟩ := h (offset + '('.utf8Size)
  have hclose : Lexes (offset + '('.utf8Size + utf8Len text.toList) [')'] _ := (lexes_nil _).symbol rfl
  rw [parens, String.toList_append, String.toList_append]
  exact ⟨_, _, .atom (.alt _), .group rfl rfl hread, (hlex.append hclose (ends_cons rfl _)).symbol rfl⟩

theorem quantifiedAt (q : Quantifier) (h : Spelled .operand text e) :
    ∀ pos, Spelled pos (Expr.quantified q.operator text pos) (Expr.shape pos (q.wrap e))
  | .top => by cases q <;> exact (h.quantified _).last.branch
  | .branch => by cases q <;> exact (h.quantified _).last
  | .item => by cases q <;> exact h.quantified _
  | .operand => by cases q <;> exact (h.quantified _).last.branch.group

theorem sequence (hne : es ≠ []) (h : ∀ e ∈ es, Spelled .item (printAt .item e) (normalAt .item e)) :
    Spelled .branch (printSeparated " " .item es) (.seq (normalAll .item es)) := by
  induction es with
  | nil => exact absurd rfl hne
  | cons e es ih =>
    obtain ⟨he, hes⟩ := List.forall_mem_cons.mp h
    cases es with
    | nil => exact he.last
    | cons e' es => exact he.more (ih (by simp) hes)

theorem alternation (hne : es ≠ []) (h : ∀ e ∈ es, Spelled .branch (printAt .branch e) (normalAt .branch e)) :
    Spelled .top (printSeparated " | " .branch es) (.alt (normalAll .branch es)) := by
  induction es with
  | nil => exact absurd rfl hne
  | cons e es ih =>
    obtain ⟨he, hes⟩ := List.forall_mem_cons.mp h
    cases es with
    | nil => exact he.branch
    | cons e' es => exact he.split (ih (by simp) hes)

end Spelled

theorem spelled_printAt {e : Expr Term} (he : e.Full) (h : ∀ t ∈ e.leaves, t.Writable) (pos : Position) :
    Spelled pos (printAt pos e) (normalAt pos e) := by
  induction he generalizing pos with
  | term t =>
    have hterm := Spelled.term (h t List.mem_cons_self)
    cases pos with
    | top => exact hterm.bare.last.branch
    | branch => exact hterm.bare.last
    | item => exact hterm.bare
    | operand => exact hterm
  | @seq items hne _ ih =>
    rw [Expr.leaves, Expr.leavesAll_eq_flatMap] at h
    have hitems : Spelled .branch (printSeparated " " .item items) (.seq (normalAll .item items)) :=
      .sequence hne fun e he => ih e he (fun t ht => h t (List.mem_flatMap.mpr ⟨e, he, ht⟩)) .item
    cases pos with
    | top => exact hitems.branch
    | branch => exact hitems
    | item => exact hitems.branch.group.bare
    | operand => exact hitems.branch.group
  | @alt branches hne _ ih =>
    rw [Expr.leaves, Expr.leavesAll_eq_flatMap] at h
    have hbranches : Spelled .top (printSeparated " | " .branch branches) (.alt (normalAll .branch branches)) :=
      .alternation hne fun e he => ih e he (fun t ht => h t (List.mem_flatMap.mpr ⟨e, he, ht⟩)) .branch
    cases pos with
    | top => exact hbranches
    | branch => exact hbranches.group.bare.last
    | item => exact hbranches.group.bare
    | operand => exact hbranches.group
  | star _ ih => exact (ih h .operand).quantifiedAt .star pos
  | plus _ ih => exact (ih h .operand).quantifiedAt .plus pos
  | optional _ ih => exact (ih h .operand).quantifiedAt .optional pos

def Phrase.Normal : Phrase → Prop
  | .atom e => normalAt .operand (e.map (·.term)) = e.map (·.term)
  | .item e => normalAt .item (e.map (·.term)) = e.map (·.term)
  | .sequence items => normalAll .item (mapAll (·.term) items) = mapAll (·.term) items
  | .alternation branches => normalAll .branch (mapAll (·.term) branches) = mapAll (·.term) branches

theorem Reads.normal {p : Phrase} {ts : List Token} (h : Reads p ts) : p.Normal := by
  induction h with
  | name => rfl
  | aliased => rfl
  | group _ _ _ ih => exact congrArg Expr.alt ih
  | bare h ih =>
    cases h with
    | name => rfl
    | aliased => rfl
    | group => exact ih
  | quantified q _ _ ih =>
    cases q with
    | star => exact congrArg Expr.star ih
    | plus => exact congrArg Expr.plus ih
    | optional => exact congrArg Expr.optional ih
  | last _ ih => exact congrArg (fun e => [e]) ih
  | more _ _ ihe ihs => exact congrArg₂ List.cons ihe ihs
  | branch _ ih => exact congrArg (fun items => [Expr.seq items]) ih
  | split _ _ _ ihs ihb => exact congrArg₂ (fun items es => Expr.seq items :: es) ihs ihb

def Phrase.leaves : Phrase → List Mention
  | .atom e => e.leaves
  | .item e => e.leaves
  | .sequence items => Expr.leavesAll items
  | .alternation branches => Expr.leavesAll branches

theorem Reads.forall_names {Q : String → Prop} {p : Phrase} {ts : List Token} (h : Reads p ts)
    (hts : ∀ t ∈ ts, t.kind = .ident → Q t.text) : ∀ m ∈ p.leaves, Q m.term.name ∧ Q m.term.callable := by
  induction h with
  | name ht =>
    have hname := hts _ (by simp) ht
    exact List.forall_mem_singleton.mpr ⟨hname, hname⟩
  | aliased ht _ ha => exact List.forall_mem_singleton.mpr ⟨hts _ (by simp) ht, hts _ (by simp) ha⟩
  | group _ _ _ ih => exact ih fun t ht => hts t (by simp [ht])
  | bare _ ih => exact ih hts
  | quantified q _ _ ih =>
    have hinner := ih fun t ht => hts t (by simp [ht])
    cases q <;> exact hinner
  | last _ ih =>
    simpa [Phrase.leaves, Expr.leavesAll] using ih hts
  | more _ _ ihe ihs =>
    have hitem := ihe fun t ht => hts t (by simp [ht])
    have hitems := ihs fun t ht => hts t (by simp [ht])
    exact List.forall_mem_append.mpr ⟨hitem, hitems⟩
  | branch _ ih => simpa [Phrase.leaves, Expr.leavesAll, Expr.leaves] using ih hts
  | split _ _ _ ihs ihb =>
    have hitems := ihs fun t ht => hts t (by simp [ht])
    have hbranches := ihb fun t ht => hts t (by simp [ht])
    exact List.forall_mem_append.mpr ⟨hitems, hbranches⟩

theorem Reads.writable {p : Phrase} {ts : List Token} (h : Reads p ts)
    (hts : ∀ t ∈ ts, t.kind = .ident → IsWord t.text) : ∀ m ∈ p.leaves, m.term.Writable := by
  intro m hm
  obtain ⟨hname, hcallable⟩ := h.forall_names hts m hm
  exact ⟨hname, hcallable⟩

end CallGrammar
