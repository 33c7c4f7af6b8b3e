import CallGrammar.Proofs.DepthLimit
import CallGrammar.Proofs.StateLimit
import CallGrammar.Proofs.Normalization
import Mathlib.Data.List.Forall2

namespace CallGrammar

open List (Forall₂)
open CallGrammar.Expr (Position mapAll number)

variable {ρ : String → String}

def Term.rename (ρ : String → String) (t : Term) : Term := ⟨ρ t.name, ρ t.callable⟩

structure Token.Respells (ρ : String → String) (t u : Token) : Prop where
  kind_eq : u.kind = t.kind
  text_eq : t.kind = .ident → u.text = ρ t.text

instance (ρ : String → String) (t u : Token) : Decidable (t.Respells ρ u) :=
  decidable_of_iff (u.kind = t.kind ∧ (t.kind = .ident → u.text = ρ t.text))
    ⟨fun ⟨hkind, htext⟩ => ⟨hkind, htext⟩, fun h => ⟨h.kind_eq, h.text_eq⟩⟩

def identifiers (ts : List Token) : List String := (ts.filter (·.kind = .ident)).map (·.text)

theorem mem_identifiers {ts : List Token} {t : Token} (h : t ∈ ts) (ht : t.kind = .ident) : t.text ∈ identifiers ts :=
  List.mem_map_of_mem (List.mem_filter.mpr ⟨h, by simpa using ht⟩)

def Distinguishes (ρ : String → String) (names : List String) : Prop := ∀ x ∈ names, ∀ y ∈ names, ρ x = ρ y → x = y

instance (ρ : String → String) (names : List String) : Decidable (Distinguishes ρ names) :=
  inferInstanceAs (Decidable (∀ x ∈ names, ∀ y ∈ names, ρ x = ρ y → x = y))

theorem map_kind_of_respells {ts us : List Token} (h : Forall₂ (Token.Respells ρ) ts us) :
    us.map (·.kind) = ts.map (·.kind) := by
  induction h with
  | nil => rfl
  | cons h _ ih => rw [List.map_cons, List.map_cons, h.kind_eq, ih]

section

variable {α β : Type} {R : α → β → Prop} {a : α} {as bs : List α} {cs : List β}

theorem exists_singleton_of_forall₂ (h : Forall₂ R [a] cs) : ∃ c, cs = [c] ∧ R a c := by
  obtain ⟨c, _, hc, hnil, rfl⟩ := List.forall₂_cons_left_iff.mp h
  obtain rfl := List.forall₂_nil_left_iff.mp hnil
  exact ⟨c, rfl, hc⟩

theorem exists_append_of_forall₂ (h : Forall₂ R (as ++ bs) cs) :
    ∃ us vs, cs = us ++ vs ∧ Forall₂ R as us ∧ Forall₂ R bs vs := by
  have hfirst := List.forall₂_take as.length h
  have hrest := List.forall₂_drop as.length h
  rw [List.take_left] at hfirst
  rw [List.drop_left] at hrest
  exact ⟨_, _, (List.take_append_drop as.length cs).symm, hfirst, hrest⟩

end

theorem Reads.respelled {p : Phrase} {ts us : List Token} {pos : Position} {e : Expr Term} (h : Reads p ts)
    (hp : p.Shows pos e) (hus : Forall₂ (Token.Respells ρ) ts us) :
    ∃ q e', q.Shows pos e' ∧ Reads q us ∧ e' = e.map (Term.rename ρ) := by
  induction h generalizing us pos e with
  | @name t ht =>
    obtain ⟨u, rfl, hu⟩ := exists_singleton_of_forall₂ hus
    cases hp
    refine ⟨_, _, .atom _, .name (hu.kind_eq.trans ht), ?_⟩
    simp [Expr.map, Term.rename, Term.plain, hu.text_eq ht]
  | @aliased t c a ht hc ha =>
    obtain ⟨u, _, hu, hus', rfl⟩ := List.forall₂_cons_left_iff.mp hus
    obtain ⟨v, _, hv, hus'', rfl⟩ := List.forall₂_cons_left_iff.mp hus'
    obtain ⟨w, rfl, hw⟩ := exists_singleton_of_forall₂ hus''
    cases hp
    refine ⟨_, _, .atom _, .aliased (hu.kind_eq.trans ht) (hv.kind_eq.trans hc) (hw.kind_eq.trans ha), ?_⟩
    simp [Expr.map, Term.rename, hu.text_eq ht, hw.text_eq ha]
  | group ho hc _ ih =>
    obtain ⟨u, _, hu, hinside, rfl⟩ := List.forall₂_cons_left_iff.mp hus
    obtain ⟨vs, _, rfl, hvs, hlast⟩ := exists_append_of_forall₂ hinside
    obtain ⟨w, rfl, hw⟩ := exists_singleton_of_forall₂ hlast
    obtain ⟨_, _, ⟨_⟩, hread, he⟩ := ih (.alternation _) hvs
    cases hp
    exact ⟨_, _, .atom _, .group (hu.kind_eq.trans ho) (hw.kind_eq.trans hc) hread, he⟩
  | bare _ ih =>
    obtain ⟨_, _, ⟨_⟩, hread, he⟩ := ih (.atom _) hus
    cases hp
    exact ⟨_, _, .item _, .bare hread, he⟩
  | quantified q ht _ ih =>
    obtain ⟨vs, _, rfl, hvs, hlast⟩ := exists_append_of_forall₂ hus
    obtain ⟨w, rfl, hw⟩ := exists_singleton_of_forall₂ hlast
    obtain ⟨_, _, ⟨_⟩, hread, he⟩ := ih (.atom _) hvs
    cases hp
    refine ⟨_, _, .item _, .quantified q (hw.kind_eq.trans ht) hread, ?_⟩
    rw [q.map_wrap, q.map_wrap, q.map_wrap, he]
  | last _ ih =>
    obtain ⟨_, _, ⟨_⟩, hread, he⟩ := ih (.item _) hus
    cases hp
    exact ⟨_, _, .sequence _, .last hread, congrArg (fun item => Expr.seq [item]) he⟩
  | more _ _ ihe ihs =>
    obtain ⟨vs, ws, rfl, hvs, hws⟩ := exists_append_of_forall₂ hus
    obtain ⟨_, _, ⟨_⟩, hread, he⟩ := ihe (.item _) hvs
    obtain ⟨_, _, ⟨_⟩, hread', hitems⟩ := ihs (.sequence _) hws
    cases hp
    refine ⟨_, _, .sequence _, .more hread hread', ?_⟩
    rw [mapAll, he, Expr.seq.inj hitems]
    rfl
  | branch _ ih =>
    obtain ⟨_, _, ⟨_⟩, hread, hitems⟩ := ih (.sequence _) hus
    cases hp
    exact ⟨_, _, .alternation _, .branch hread, congrArg (fun branch => Expr.alt [branch]) hitems⟩
  | split hp' _ _ ihs ihb =>
    obtain ⟨vs, _, rfl, hvs, hrest⟩ := exists_append_of_forall₂ hus
    obtain ⟨w, ws, hw, hws, rfl⟩ := List.forall₂_cons_left_iff.mp hrest
    obtain ⟨_, _, ⟨_⟩, hread, hitems⟩ := ihs (.sequence _) hvs
    obtain ⟨_, _, ⟨_⟩, hread', hbranches⟩ := ihb (.alternation _) hws
    cases hp
    refine ⟨_, _, .alternation _, .split (hw.kind_eq.trans hp') hread hread', ?_⟩
    rw [mapAll, Expr.map, hitems, Expr.alt.inj hbranches]
    rfl

namespace TermTable

variable {f : Term → Term} {S : Set Term} {t t' : TermTable} {x : Term}

structure Image (f : Term → Term) (S : Set Term) (t t' : TermTable) : Prop where
  injOn : Set.InjOn f S
  mem {x : Term} : x ∈ t.toList → x ∈ S
  toList_eq : t'.toList = t.toList.map f

namespace Image

theorem mem_iff (h : Image f S t t') (hx : x ∈ S) : f x ∈ t'.toList ↔ x ∈ t.toList := by
  rw [h.toList_eq, List.mem_map]
  constructor
  · rintro ⟨y, hy, hxy⟩
    rwa [← h.injOn (h.mem hy) hx hxy]
  · intro hmem
    exact ⟨x, hmem, rfl⟩

theorem intern (h : Image f S t t') (hx : x ∈ S) : Image f S (t.intern x).1 (t'.intern (f x)).1 where
  injOn := h.injOn
  mem hy := (mem_intern hy).elim h.mem fun hyx => hyx ▸ hx
  toList_eq := by
    rw [toList_intern, toList_intern]
    by_cases hmem : x ∈ t.toList
    · rw [if_pos hmem, if_pos ((h.mem_iff hx).mpr hmem), h.toList_eq]
    · rw [if_neg hmem, if_neg ((h.mem_iff hx).not.mpr hmem), h.toList_eq, List.map_append, List.map_singleton]

theorem internAll {xs : List Term} (h : Image f S t t') (hxs : ∀ x ∈ xs, x ∈ S) :
    Image f S (t.internAll xs) (t'.internAll (xs.map f)) := by
  induction xs generalizing t t' with
  | nil => exact h
  | cons x xs ih =>
    obtain ⟨hx, hxs⟩ := List.forall_mem_cons.mp hxs
    exact ih (h.intern hx) hxs

theorem find?_eq (h : Image f S t t') (hx : x ∈ S) : t'.find? (f x) = t.find? x := by
  refine Option.ext fun i => ?_
  rw [find?_eq_some_iff, find?_eq_some_iff, get?_eq_getElem?, get?_eq_getElem?, h.toList_eq, List.getElem?_map,
    Option.map_eq_some_iff]
  constructor
  · rintro ⟨y, hy, hxy⟩
    rwa [← h.injOn (h.mem (List.mem_of_getElem? hy)) hx hxy]
  · intro hfound
    exact ⟨x, hfound, rfl⟩

end Image

end TermTable

theorem Expr.number_renamed {f : Term → Term} {e e' : Expr Mention} (h : e'.map (·.term) = (e.map (·.term)).map f)
    (hf : Set.InjOn f {x | x ∈ e.leaves.map (·.term)}) :
    (number .empty e').1.toList = (number .empty e).1.toList.map f ∧
      (number .empty e').2.map (·.id) = (number .empty e).2.map (·.id) := by
  have hleaves : e'.leaves.map (·.term) = (e.leaves.map (·.term)).map f := by
    rw [← leaves_map, h, leaves_map, leaves_map]
  have hempty : TermTable.Image f {x | x ∈ e.leaves.map (·.term)} .empty .empty := ⟨hf, nofun, rfl⟩
  have himage := hempty.internAll fun x (hx : x ∈ e.leaves.map Mention.term) => hx
  rw [← hleaves, ← terms_number, ← terms_number] at himage
  refine ⟨himage.toList_eq, ?_⟩
  rw [map_id_number, map_id_number, h, map_map]
  refine map_congr _ fun x hx => ?_
  rw [leaves_map] at hx
  rw [Function.comp_apply, himage.find?_eq hx]

structure Parsed.Renamed (ρ : String → String) (p q : Parsed) : Prop where
  expr_eq : q.expr = p.expr.map (Term.rename ρ)
  ids_eq : q.root.map (·.id) = p.root.map (·.id)
  terms_eq : q.terms.toList = p.terms.toList.map (Term.rename ρ)

variable {source text : String}

theorem injOn_rename {names : List String} (h : Distinguishes ρ names) :
    Set.InjOn (Term.rename ρ) {x | x.name ∈ names ∧ x.callable ∈ names} := by
  rintro ⟨name, callable⟩ ⟨hname, hcallable⟩ ⟨name', callable'⟩ ⟨hname', hcallable'⟩ heq
  obtain ⟨hnames, hcallables⟩ := Term.mk.inj heq
  rw [h name hname name' hname' hnames, h callable hcallable callable' hcallable' hcallables]

theorem exists_renamed_of_parse {p : Parsed} (h : parse none source = .ok p)
    (hlex : Forall₂ (Token.Respells ρ) (lex source) (lex text)) (hρ : Distinguishes ρ (identifiers (lex source))) :
    ∃ q, parse none text = .ok q ∧ p.Renamed ρ q := by
  rw [parse] at h
  obtain ⟨branches, hread, hnumber⟩ := parseTokens_eq_ok_iff.mp h
  obtain ⟨_, _, hshows, hread', hrenamed⟩ := hread.respelled (.alternation _) hlex
  obtain ⟨branches', rfl, hbranches⟩ := hshows.exists_branches
  rw [hrenamed] at hbranches
  have hinj : Set.InjOn (Term.rename ρ) {x | x ∈ (Expr.alt branches).leaves.map (·.term)} := by
    refine (injOn_rename hρ).mono fun x hx => ?_
    obtain ⟨m, hm, rfl⟩ := List.mem_map.mp hx
    exact hread.forall_names (fun t ht hkind => mem_identifiers ht hkind) m hm
  obtain ⟨hterms, hids⟩ := Expr.number_renamed hbranches hinj
  rw [hnumber] at hterms hids
  refine ⟨_, parseTokens_of_reads hread', ?_, hids, hterms⟩
  rw [Parsed.expr_of_number hnumber, Parsed.expr, Expr.map_term_number, hbranches]
  rfl

theorem exists_parse_error {e : ParseError} (h : parse none source = .error e)
    (hkinds : (lex text).map (·.kind) = (lex source).map (·.kind)) : ∃ e', parse none text = .error e' := by
  cases h' : parse none text with
  | error e' => exact ⟨e', rfl⟩
  | ok q =>
    have hderives := derives_of_parseTokens h'
    rw [hkinds] at hderives
    obtain ⟨branches, hread⟩ := derives_alternation_iff.mp hderives
    rw [parse, parseTokens_of_reads hread] at h
    cases h

inductive RespelledOutcome (ρ : String → String) (limits : Limits) (source text : String) :
    Option (Except CompileError Grammar) → Option (Except CompileError Grammar) → Prop where
  | compiled {p q : Parsed} {nfa : Nfa} {subsets : Subsets} : p.Renamed ρ q →
      RespelledOutcome ρ limits source text (some (.ok ⟨source, p.root, p.terms, nfa, subsets⟩))
        (some (.ok ⟨text, q.root, q.terms, nfa, subsets⟩))
  | tooDeep : RespelledOutcome ρ limits source text (some (.error .recursionLimitExceeded))
      (some (.error .recursionLimitExceeded))
  | tooLarge : RespelledOutcome ρ limits source text (some (.error (.stateLimitExceeded limits.states)))
      (some (.error (.stateLimitExceeded limits.states)))
  | malformed {d d' : Diagnostic} {i : Nat} : FirstFault source.utf8ByteSize (lex source) i d →
      FirstFault text.utf8ByteSize (lex text) i d' → d'.kind = d.kind →
      RespelledOutcome ρ limits source text (some (.error (.malformed [d]))) (some (.error (.malformed [d'])))

theorem respelledOutcome_of_error {e : ParseError} (hsource : source.utf8ByteSize < UInt32.size)
    (htext : text.utf8ByteSize < UInt32.size) (h : parse none source = .error e)
    (hkinds : (lex text).map (·.kind) = (lex source).map (·.kind)) (limits : Limits) :
    RespelledOutcome ρ limits source text (some (Grammar.compile limits source)) (some (Grammar.compile limits text)) := by
  obtain ⟨e', h'⟩ := exists_parse_error h hkinds
  obtain ⟨i, position, cause, rfl, hfault⟩ := exists_firstFault h
  obtain ⟨j, position', cause', rfl, hfault'⟩ := exists_firstFault h'
  have hreach := hfault'.reach
  rw [hkinds] at hreach
  obtain rfl := hfault.reach.unique hreach
  rw [parse] at h h'
  rcases parseTokens_some_cases limits.recursion (endOffset source) hfault.reach with ⟨hdeep, hwithin⟩ | ⟨hsame, hnone⟩
  · rw [← hkinds] at hwithin
    have hdeep' : parse (some limits.recursion) text = .error .tooDeep :=
      (parseTokens_some_eq_tooDeep_iff hfault'.reach).mpr hwithin
    rw [Grammar.compile_of_parse_error hdeep, Grammar.compile_of_parse_error hdeep']
    exact .tooDeep
  · rw [h] at hsame
    rcases parseTokens_some_cases limits.recursion (endOffset text) hfault'.reach with ⟨_, hwithin⟩ | ⟨hsame', _⟩
    · rw [hkinds] at hwithin
      exact absurd hwithin hnone
    · rw [h'] at hsame'
      rw [Grammar.compile_of_parse_error hsame, Grammar.compile_of_parse_error hsame']
      exact .malformed (endOffset_eq hsource ▸ hfault) (endOffset_eq htext ▸ hfault') (hfault.kind_eq hfault' hkinds)

def swapped (name : String) : String := if name = "a" then "b" else if name = "b" then "a" else name

end CallGrammar
