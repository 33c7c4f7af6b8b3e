import CallGrammar.Proofs.Resolution
import Mathlib.Data.List.Forall2

namespace CallGrammar

def TermTable.keep? (terms : TermTable) (p : Term → Bool) : List (TermId × StateId) → Option (List (TermId × StateId))
  | [] => some []
  | e :: es =>
      (terms.get? e.1).bind fun t => (terms.keep? p es).map fun kept => if p t then e :: kept else kept

def TermTable.getAll? (terms : TermTable) (edges : List (TermId × StateId)) : Option (List Term) :=
  edges.mapM fun e => terms.get? e.1

namespace Chain

variable {Object Args Output : Type}

def isFinal? (c : Chain Object Args Output) : Option Bool := (c.dfa.get? c.state).map (·.isFinal)

def expected? (c : Chain Object Args Output) : Option (List String) :=
  (c.dfa.get? c.state).bind fun s => (c.terms.getAll? s.edges).map fun ts => (ts.map (·.callable)).eraseDups

def resting? (c : Chain Object Args Output) : Option Event :=
  c.expected?.bind fun expected => c.isFinal?.map fun isFinal => .resting c.state isFinal expected

def candidates? (c : Chain Object Args Output) (name : String) : Option (List (TermId × StateId)) :=
  (c.dfa.get? c.state).bind fun s =>
    (c.terms.keep? (·.callable = name) s.edges).bind fun
      | [] => c.terms.keep? (·.name = name) s.edges
      | named => some named

def pick? (es : List (TermId × StateId)) (refusal : DispatchError) : Option Nat →
    Option (Except DispatchError (TermId × StateId))
  | some k => if k < es.length then es[k]?.map .ok else some (.error refusal)
  | none => some (.error refusal)

def resolve? (c : Chain Object Args Output) (name : String) (args : Args) :
    Option (Except DispatchError (TermId × StateId)) :=
  (c.candidates? name).bind fun
    | [] => c.expected?.map fun expected => .error (.notAllowed name c.state expected)
    | [edge] => some (.ok edge)
    | several =>
        (c.terms.getAll? several).bind fun ts =>
          pick? several (.ambiguous name c.state ts) (c.actions.select name ts args c.object)

def call? (c : Chain Object Args Output) (name : String) (args : Args) : Option (Reply Object Args Output Unit) :=
  (c.resolve? name args).bind fun
    | .error e => some ⟨.error e, c, [.called c.state name, .rejected c.state name e]⟩
    | .ok (id, target) =>
        (c.terms.get? id).bind fun term =>
          match c.actions.apply term args c.object with
          | (.error message, object) =>
              let e := .failed name message
              some ⟨.error e, { c with object }, [.called c.state name, .rejected c.state name e]⟩
          | (.ok _, object) =>
              let moved := { c with object, state := target }
              moved.resting?.map fun resting => ⟨.ok (), moved, [.called c.state name, .moved c.state term target, resting]⟩

def build? (c : Chain Object Args Output) : Option (Reply Object Args Output Output) :=
  c.isFinal?.map fun
    | true =>
        let (output, object) := c.actions.build c.object
        ⟨.ok output, { c with object }, [.built c.state true]⟩
    | false => ⟨.error (.premature c.state), c, [.built c.state false]⟩

def perform? (c : Chain Object Args Output) : Operation Args → Option (Chain Object Args Output × List Event)
  | .call name args => (c.call? name args).map fun r => (r.chain, r.events)
  | .build => c.build?.map fun r => (r.chain, r.events)
  | .watch => c.resting?.map fun e => (c, [e])

def run? (c : Chain Object Args Output) : List (Operation Args) → Option (Chain Object Args Output × List Event)
  | [] => some (c, [])
  | op :: ops => (c.perform? op).bind fun r => (r.1.run? ops).map fun r' => (r'.1, r.2 ++ r'.2)

end Chain

def TermTable.Names (terms : TermTable) (e : TermId × StateId) (m : Term × StateId) : Prop :=
  terms.get? e.1 = some m.1 ∧ e.2 = m.2

namespace TermTable

variable {terms : TermTable} {es : List (TermId × StateId)} {ms : List (Term × StateId)}

open List (Forall₂)

theorem getAll?_of_names (h : Forall₂ terms.Names es ms) : terms.getAll? es = some (ms.map (·.1)) := by
  induction h with
  | nil => rfl
  | cons hname _ ih =>
    rw [getAll?] at ih ⊢
    rw [List.mapM_cons, hname.1, ih]
    rfl

theorem exists_keep?_of_names (h : Forall₂ terms.Names es ms) (p : Term → Bool) :
    ∃ kept, terms.keep? p es = some kept ∧ Forall₂ terms.Names kept (ms.filter (p ·.1)) := by
  induction h with
  | nil => exact ⟨[], rfl, .nil⟩
  | @cons e m es ms hname _ ih =>
    obtain ⟨kept, hkept, hnames⟩ := ih
    rw [keep?, hname.1, Option.bind_some, hkept, Option.map_some]
    cases hp : p m.1 with
    | true => exact ⟨e :: kept, by simp, by simpa [hp] using ⟨hname, hnames⟩⟩
    | false => exact ⟨kept, by simp, by simpa [hp] using hnames⟩

theorem names_filterMap (h : ∀ e ∈ es, ∃ t, terms.get? e.1 = some t) :
    Forall₂ terms.Names es (es.filterMap fun (id, target) => (terms.get? id).map (·, target)) := by
  induction es with
  | nil => exact .nil
  | cons e es ih =>
    obtain ⟨⟨t, ht⟩, hrest⟩ := List.forall_mem_cons.mp h
    rw [List.filterMap_cons_some (b := (t, e.2)) (by simp [ht])]
    exact .cons ⟨ht, rfl⟩ (ih hrest)

end TermTable

namespace Chain

variable {Object Args Output : Type} {c : Chain Object Args Output} {name : String} {args : Args}

structure Standing (c : Chain Object Args Output) : Prop where
  state_lt : c.state < c.dfa.size
  exists_term {id : TermId} {j : StateId} : (id, j) ∈ c.dfa.edges c.state → ∃ t, c.terms.get? id = some t

namespace Standing

open List (Forall₂)

theorem get?_eq (h : c.Standing) : ∃ s, c.dfa.get? c.state = some s ∧ s.edges = c.dfa.edges c.state ∧ s.isFinal = c.isFinal := by
  obtain ⟨s, hstate⟩ : ∃ s, c.dfa.get? c.state = some s := ⟨_, Array.getElem?_eq_getElem h.state_lt⟩
  refine ⟨s, hstate, ?_, ?_⟩
  · rw [Dfa.edges, hstate, Option.elim_some]
  · rw [isFinal, Dfa.isFinal, hstate, Option.any_some]

theorem names_moves (h : c.Standing) : Forall₂ c.terms.Names (c.dfa.edges c.state) c.moves :=
  TermTable.names_filterMap fun _ he => h.exists_term he

theorem isFinal?_eq (h : c.Standing) : c.isFinal? = some c.isFinal := by
  obtain ⟨s, hs, _, hfinal⟩ := h.get?_eq
  rw [isFinal?, hs, Option.map_some, hfinal]

theorem expected?_eq (h : c.Standing) : c.expected? = some c.expected := by
  obtain ⟨s, hs, hedges, _⟩ := h.get?_eq
  rw [expected?, hs, Option.bind_some, hedges, TermTable.getAll?_of_names h.names_moves, Option.map_some, expected,
    List.map_map]
  rfl

theorem resting?_eq (h : c.Standing) : c.resting? = some c.resting := by
  rw [resting?, h.expected?_eq, Option.bind_some, h.isFinal?_eq, Option.map_some, resting]

theorem exists_candidates? (h : c.Standing) (name : String) :
    ∃ es, c.candidates? name = some es ∧ Forall₂ c.terms.Names es (c.candidates name) := by
  obtain ⟨s, hs, hedges, _⟩ := h.get?_eq
  obtain ⟨aliased, haliased, hnamed⟩ := TermTable.exists_keep?_of_names h.names_moves (·.callable = name)
  rw [candidates?, hs, Option.bind_some, hedges, haliased, Option.bind_some, candidates]
  generalize c.moves.filter (·.1.callable = name) = moves at hnamed
  cases hnamed with
  | nil => exact TermTable.exists_keep?_of_names h.names_moves (·.name = name)
  | cons hname hnames => exact ⟨_, rfl, .cons hname hnames⟩

end Standing

def Chosen (terms : TermTable) : Except DispatchError (TermId × StateId) → Except DispatchError (Term × StateId) → Prop
  | .ok e, .ok m => terms.Names e m
  | .error e, .error e' => e = e'
  | _, _ => False

theorem exists_pick?_of_names {terms : TermTable} {es : List (TermId × StateId)} {ms : List (Term × StateId)}
    (h : List.Forall₂ terms.Names es ms) (refusal : DispatchError) (index : Option Nat) :
    ∃ choice, pick? es refusal index = some choice ∧
      Chosen terms choice ((index.bind (ms[·]?)).elim (.error refusal) .ok) := by
  cases index with
  | none => exact ⟨_, rfl, rfl⟩
  | some k =>
    rw [pick?, Option.bind_some]
    by_cases hk : k < es.length
    · have hk' : k < ms.length := h.length_eq ▸ hk
      rw [if_pos hk, List.getElem?_eq_getElem hk, List.getElem?_eq_getElem hk']
      exact ⟨_, rfl, h.get hk hk'⟩
    · have hk' : ms.length ≤ k := h.length_eq ▸ Nat.le_of_not_lt hk
      rw [if_neg hk, List.getElem?_eq_none hk']
      exact ⟨_, rfl, rfl⟩

theorem Standing.exists_resolve? (h : c.Standing) (name : String) (args : Args) :
    ∃ choice, c.resolve? name args = some choice ∧ Chosen c.terms choice (c.resolve name args) := by
  obtain ⟨es, hes, hnames⟩ := h.exists_candidates? name
  rw [resolve?, hes, Option.bind_some]
  cases hmoves : c.candidates name with
  | nil =>
    rw [hmoves] at hnames
    cases hnames
    rw [resolve_of_eq_nil hmoves]
    simp only [h.expected?_eq, Option.map_some]
    exact ⟨_, rfl, rfl⟩
  | cons m ms =>
    rw [hmoves] at hnames
    cases hnames with
    | cons hname hrest =>
      cases hrest with
      | nil =>
        rw [resolve_of_eq_singleton hmoves]
        exact ⟨_, rfl, hname⟩
      | cons hname' hrest' =>
        have hall := List.Forall₂.cons hname (.cons hname' hrest')
        rw [resolve_of_several (by simp [hmoves]), hmoves]
        simp only [TermTable.getAll?_of_names hall, Option.bind_some]
        exact exists_pick?_of_names hall _ _

theorem call?_eq (h : c.Standing) (hnext : ∀ {t : Term} {j : StateId} {object : Object},
    (t, j) ∈ c.moves → Standing { c with object, state := j }) (name : String) (args : Args) :
    c.call? name args = some (c.call name args) := by
  obtain ⟨choice, hchoice, hchosen⟩ := h.exists_resolve? name args
  rw [call?, hchoice, Option.bind_some, call]
  cases hresolve : c.resolve name args with
  | error e =>
    rw [hresolve] at hchosen
    cases choice with
    | error e' =>
      obtain rfl : e' = e := hchosen
      rfl
    | ok => exact hchosen.elim
  | ok move =>
    rw [hresolve] at hchosen
    cases choice with
    | error => exact hchosen.elim
    | ok edge =>
      obtain ⟨t, j⟩ := move
      obtain ⟨id, _⟩ := edge
      obtain ⟨hid, rfl⟩ := hchosen
      simp only [hid, Option.bind_some]
      rcases c.actions.apply t args c.object with ⟨_ | _, object⟩
      · rfl
      · have hmove := (mem_candidates (mem_candidates_of_resolve hresolve)).1
        simp only [(hnext hmove).resting?_eq, Option.map_some]

theorem Standing.build?_eq (h : c.Standing) : c.build? = some c.build := by
  rw [build?, h.isFinal?_eq, Option.map_some, build]
  cases c.isFinal <;> rfl

end Chain

theorem Grammar.Compiled.standing {Object Args Output : Type} {g : Grammar} {c : Chain Object Args Output} (hg : g.Compiled)
    (h : c.Within g) : c.Standing where
  state_lt := by
    rw [h.dfa_eq]
    exact h.state_lt
  exists_term he := by
    rw [h.terms_eq]
    exact hg.exists_term_of_mem_edges (h.dfa_eq ▸ he)

namespace Chain.Within

variable {Object Args Output : Type} {g : Grammar} {c : Chain Object Args Output}

theorem move (hd : g.dfa.WellFormed) (h : c.Within g) {t : Term} {j : StateId} {object : Object}
    (hmove : (t, j) ∈ c.moves) : Within g { c with object, state := j } where
  dfa_eq := h.dfa_eq
  terms_eq := h.terms_eq
  state_lt := by
    obtain ⟨id, hedge, _⟩ := mem_moves_iff.mp hmove
    exact hd.edge_lt (h.dfa_eq ▸ hedge)

theorem perform (hd : g.dfa.WellFormed) (h : c.Within g) (op : Operation Args) : (c.perform op).1.Within g := by
  obtain ⟨object, s, hperform, hs | ⟨t, hmove⟩⟩ := c.exists_perform_eq op
  · rw [hperform, hs]
    exact ⟨h.dfa_eq, h.terms_eq, h.state_lt⟩
  · rw [hperform]
    exact h.move hd hmove

theorem perform?_eq (hg : g.Compiled) (hd : g.dfa.WellFormed) (h : c.Within g) (op : Operation Args) :
    c.perform? op = some (c.perform op) := by
  have hstanding := hg.standing h
  cases op with
  | call name args =>
    rw [perform?, call?_eq hstanding fun hmove => hg.standing (h.move hd hmove), Option.map_some, Chain.perform]
  | build => rw [perform?, hstanding.build?_eq, Option.map_some, Chain.perform]
  | watch => rw [perform?, hstanding.resting?_eq, Option.map_some, Chain.perform]

theorem run?_eq (hg : g.Compiled) (hd : g.dfa.WellFormed) (h : c.Within g) (ops : List (Operation Args)) :
    c.run? ops = some (c.run ops) := by
  induction ops generalizing c with
  | nil => rfl
  | cons op ops ih =>
    rw [run?, h.perform?_eq hg hd op, Option.bind_some, ih (h.perform hd op), Option.map_some, run]

theorem run (hd : g.dfa.WellFormed) (h : c.Within g) (ops : List (Operation Args)) : (c.run ops).1.Within g := by
  induction ops generalizing c with
  | nil => exact h
  | cons op ops ih =>
    rw [Chain.run]
    exact ih (h.perform hd op)

end Chain.Within

end CallGrammar
