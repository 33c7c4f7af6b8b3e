import CallGrammar.Proofs.Chain

namespace CallGrammar

open CallGrammar.Expr (Matches)

namespace Grammar

variable {g : Grammar} {id : TermId} {s j : StateId} {t : Term} {ids : List TermId}

theorem exists_occurrence_of_compile {limits : Limits} {source : String} (h : compile limits source = .ok g)
    (hid : g.terms.get? id = some t) : ∃ o ∈ g.ast.leaves, o.id = id := by
  obtain ⟨hparse, _, _⟩ := compile_eq_ok h
  obtain ⟨branches, _, hnumber⟩ := parseTokens_eq_ok_iff.mp (parseTokens_none hparse)
  have hcases := @Expr.get?_number_cases .empty id t (.alt branches)
  rw [hnumber] at hcases
  exact (hcases hid).resolve_left (by simp [TermTable.get?, TermTable.empty])

namespace Compiled

theorem accepts_of_matches (h : g.Compiled) (hids : Matches (g.ast.map (·.id)) ids) : g.dfa.accepts ids = true := by
  have haccepts : g.dfa.accepts ids = g.nfa.accepts ids := h.mirrors.accepts_eq ids
  rw [haccepts, Nfa.accepts_iff_path h.wellFormed, h.nfa_eq, Nfa.path_ofExpr_iff]
  exact hids

theorem exists_path_through (h : g.Compiled) {i : StateId} (hi : i < g.nfa.size) :
    ∃ u v, g.nfa.Path Nfa.start u i ∧ g.nfa.Path i v Nfa.accept := by
  rw [h.nfa_eq] at hi ⊢
  exact Nfa.exists_path_of_full ((Expr.full_map_iff (·.id) g.ast).mpr h.full) hi

theorem exists_final (h : g.Compiled) (hs : s < g.dfa.size) :
    ∃ w s', g.dfa.runFrom s w = some s' ∧ g.dfa.isFinal s' = true := by
  obtain ⟨ids, hrun⟩ := h.mirrors.reached s hs
  have halive : (g.nfa.simulate ids).isEmpty = false := (h.mirrors.defined_iff ids).mp ⟨s, hrun⟩
  rw [h.nfa_eq, Nfa.simulate_nonempty_iff ((Expr.full_map_iff (·.id) g.ast).mpr h.full)] at halive
  obtain ⟨v, hv⟩ := halive
  obtain ⟨s', hrun', hfinal⟩ := Dfa.exists_run_of_accepts (h.accepts_of_matches hv)
  obtain ⟨i, hi, hrest⟩ := Dfa.run_append_eq_some hrun'
  obtain rfl : i = s := Option.some.inj (hi.symm.trans hrun)
  exact ⟨v, s', hrest, hfinal⟩

theorem exists_edge_of_mem_leaves (h : g.Compiled) {o : Occurrence} (ho : o ∈ g.ast.leaves) :
    ∃ s j, (o.id, j) ∈ g.dfa.edges s := by
  obtain ⟨os, hos, hmem⟩ := h.full.exists_matches_of_mem_leaves ho
  have hids : Matches (g.ast.map (·.id)) (os.map (·.id)) := Expr.matches_map (·.id) hos
  obtain ⟨before, after, rfl⟩ := List.append_of_mem hmem
  rw [List.map_append, List.map_cons] at hids
  obtain ⟨last, hrun, _⟩ := Dfa.exists_run_of_accepts (h.accepts_of_matches hids)
  obtain ⟨s, _, hrest⟩ := Dfa.run_append_eq_some hrun
  obtain ⟨j, hstep, _⟩ := Option.bind_eq_some_iff.mp hrest
  exact ⟨s, j, Dfa.step_eq_some_iff.mp hstep⟩

theorem lt_size_of_run (h : g.Compiled) (hrun : g.dfa.run ids = some s) : s < g.dfa.size := by
  have hcore := (Array.getElem?_eq_some_iff.mp (h.mirrors.core ids s hrun)).1
  exact Nat.lt_of_lt_of_eq hcore h.mirrors.size_eq

theorem exists_term_of_mem_edges (h : g.Compiled) (hedge : (id, j) ∈ g.dfa.edges s) : ∃ t, g.terms.get? id = some t := by
  obtain ⟨ids, hrun⟩ := h.mirrors.reached s (Dfa.lt_size_of_mem_edges hedge)
  obtain ⟨v, hv⟩ := (h.exists_edge_iff_matches hrun id).mp ⟨j, hedge⟩
  obtain ⟨w, hspells, _⟩ := h.exists_terms hv
  exact hspells.exists_term (by simp)

theorem exists_edge_of_not_isFinal (h : g.Compiled) (hs : s < g.dfa.size) (hfinal : g.dfa.isFinal s = false) :
    ∃ id j t, (id, j) ∈ g.dfa.edges s ∧ g.terms.get? id = some t := by
  obtain ⟨w, s', hrun, hend⟩ := h.exists_final hs
  cases w with
  | nil =>
    obtain rfl := Option.some.inj hrun
    exact absurd hend (by simp [hfinal])
  | cons id w =>
    obtain ⟨j, hstep, _⟩ := Option.bind_eq_some_iff.mp hrun
    have hedge := Dfa.step_eq_some_iff.mp hstep
    obtain ⟨t, ht⟩ := h.exists_term_of_mem_edges hedge
    exact ⟨id, j, t, hedge, ht⟩

end Compiled

end Grammar

variable {Object Args Output : Type}

structure Chain.Within (g : Grammar) (c : Chain Object Args Output) : Prop where
  dfa_eq : c.dfa = g.dfa
  terms_eq : c.terms = g.terms
  state_lt : c.state < g.dfa.size

structure Chain.Lively (c : Chain Object Args Output) : Prop where
  finishes : ∃ w s, c.dfa.runFrom c.state w = some s ∧
    ∀ object, ∃ output, { c with object, state := s }.build.result = .ok output
  expects : c.isFinal = false → c.expected ≠ []

structure Grammar.Lively (g : Grammar) (Object Args Output : Type) : Prop where
  crossed {i : StateId} : i < g.nfa.size → ∃ u v, g.nfa.Path Nfa.start u i ∧ g.nfa.Path i v Nfa.accept
  finishes {s : StateId} : s < g.dfa.size → ∃ w s', g.dfa.runFrom s w = some s' ∧ g.dfa.isFinal s' = true
  used {id : TermId} : id < g.terms.size → ∃ s j, s < g.dfa.size ∧ (id, j) ∈ g.dfa.edges s
  within (actions : Actions Object Args Output) (object : Object) (ops : List (Operation Args)) :
    ((g.chain actions object).run ops).1.Within g
  lively (c : Chain Object Args Output) : c.Within g → c.Lively
  callables (actions : Actions Object Args Output) (object : Object) (name : String) :
    name ∈ g.callables ↔ ∃ s < g.dfa.size, name ∈ { g.chain actions object with state := s }.expected

variable {g : Grammar} {c : Chain Object Args Output}

theorem Follows.within {actions : Actions Object Args Output} {w : List Term} (hg : g.Compiled)
    (h : Follows g actions w c) : c.Within g := by
  obtain ⟨ids, _, hrun⟩ := h.path
  exact ⟨h.dfa_eq, h.terms_eq, hg.lt_size_of_run hrun⟩

theorem Chain.Within.mem_expected_iff (h : c.Within g) {name : String} : name ∈ c.expected ↔
    ∃ id j t, (id, j) ∈ g.dfa.edges c.state ∧ g.terms.get? id = some t ∧ t.callable = name := by
  simp only [Chain.mem_expected_iff, Chain.mem_moves_iff, h.dfa_eq, h.terms_eq]
  constructor
  · rintro ⟨t, j, ⟨id, hedge, hid⟩, hname⟩
    exact ⟨id, j, t, hedge, hid, hname⟩
  · rintro ⟨id, j, t, hedge, hid, hname⟩
    exact ⟨t, j, ⟨id, hedge, hid⟩, hname⟩

theorem Chain.Within.lively (hg : g.Compiled) (h : c.Within g) : c.Lively where
  finishes := by
    obtain ⟨w, s, hrun, hfinal⟩ := hg.exists_final h.state_lt
    rw [← h.dfa_eq] at hrun hfinal
    refine ⟨w, s, hrun, fun object => ?_⟩
    rcases Chain.build_cases { c with object, state := s } with ⟨_, hbuild⟩ | ⟨hnot, _⟩
    · exact ⟨_, by rw [hbuild]⟩
    · rw [Chain.isFinal, hfinal] at hnot
      cases hnot
  expects hfinal := by
    rw [Chain.isFinal, h.dfa_eq] at hfinal
    obtain ⟨id, j, t, hedge, hid⟩ := hg.exists_edge_of_not_isFinal h.state_lt hfinal
    exact List.ne_nil_of_mem (h.mem_expected_iff.mpr ⟨id, j, t, hedge, hid, rfl⟩)

namespace Grammar

variable {limits : Limits} {source : String} {id : TermId}

theorem exists_edge_of_compile (h : compile limits source = .ok g) (hid : id < g.terms.size) :
    ∃ s j, s < g.dfa.size ∧ (id, j) ∈ g.dfa.edges s := by
  obtain ⟨o, ho, rfl⟩ := exists_occurrence_of_compile h (Array.getElem?_eq_getElem hid)
  obtain ⟨s, j, hedge⟩ := (compiled_of_compile h).exists_edge_of_mem_leaves ho
  exact ⟨s, j, Dfa.lt_size_of_mem_edges hedge, hedge⟩

theorem mem_callables_iff (h : compile limits source = .ok g) (actions : Actions Object Args Output) (object : Object)
    (name : String) :
    name ∈ g.callables ↔ ∃ s < g.dfa.size, name ∈ { g.chain actions object with state := s }.expected := by
  rw [callables, TermTable.mem_callables]
  constructor
  · rintro ⟨t, ht, hname⟩
    obtain ⟨id, hid⟩ := List.mem_iff_getElem?.mp ht
    rw [← TermTable.get?_eq_getElem?] at hid
    obtain ⟨s, j, hs, hedge⟩ := exists_edge_of_compile h (Array.getElem?_eq_some_iff.mp hid).1
    have hwithin : Chain.Within g { g.chain actions object with state := s } := ⟨rfl, rfl, hs⟩
    exact ⟨s, hs, hwithin.mem_expected_iff.mpr ⟨id, j, t, hedge, hid, hname⟩⟩
  · rintro ⟨s, hs, hmem⟩
    have hwithin : Chain.Within g { g.chain actions object with state := s } := ⟨rfl, rfl, hs⟩
    obtain ⟨id, j, t, _, hid, hname⟩ := hwithin.mem_expected_iff.mp hmem
    rw [TermTable.get?_eq_getElem?] at hid
    exact ⟨t, List.mem_of_getElem? hid, hname⟩

end Grammar

theorem lively_of_compile {limits : Limits} {source : String} (h : Grammar.compile limits source = .ok g) :
    g.Lively Object Args Output where
  crossed := (Grammar.compiled_of_compile h).exists_path_through
  finishes := (Grammar.compiled_of_compile h).exists_final
  used := Grammar.exists_edge_of_compile h
  within actions object ops :=
    ((Follows.start g actions object).run ops).within (Grammar.compiled_of_compile h)
  lively _ := Chain.Within.lively (Grammar.compiled_of_compile h)
  callables := Grammar.mem_callables_iff h

theorem lively_loops : ∃ g, Grammar.compile ⟨2, 12⟩ "((a|b:c)+ d?)* e" = .ok g ∧
    g.Lively (List RecordedCall) (List String) (List RecordedCall) := by
  have hsome : (Grammar.compile ⟨2, 12⟩ "((a|b:c)+ d?)* e").toOption.isSome = true := by decide +kernel
  cases hg : Grammar.compile ⟨2, 12⟩ "((a|b:c)+ d?)* e" with
  | ok g => exact ⟨g, rfl, lively_of_compile hg⟩
  | error e =>
    rw [hg] at hsome
    cases hsome

end CallGrammar
