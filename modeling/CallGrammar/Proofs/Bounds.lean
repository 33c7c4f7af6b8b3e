import CallGrammar.Proofs.Building
import CallGrammar.Proofs.Discovery
import CallGrammar.Proofs.Dispatch
import CallGrammar.Proofs.Isomorphism

namespace CallGrammar

namespace Grammar

variable {g : Grammar} {i j : StateId} {id : TermId}

theorem lt_size_of_get? {t : Term} (h : g.terms.get? id = some t) : id < g.terms.size :=
  (Array.getElem?_eq_some_iff.mp h).1

theorem Compiled.exists_term_of_mem_nfa_edges (h : g.Compiled) (hedge : (id, j) ∈ g.nfa.edges i) :
    ∃ t, g.terms.get? id = some t := by
  obtain ⟨hi, hj⟩ := h.wellFormed.below i [id] j (.inr ⟨id, rfl, hedge⟩)
  obtain ⟨u, _, hu, _⟩ := h.exists_path_through hi
  obtain ⟨_, v, _, hv⟩ := h.exists_path_through hj
  have hpath : g.nfa.Path Nfa.start (u ++ id :: v) Nfa.accept := hu.append (.edge hedge hv)
  rw [h.nfa_eq, Nfa.path_ofExpr_iff] at hpath
  obtain ⟨w, hspells, _⟩ := h.exists_terms hpath
  exact hspells.exists_term (by simp)

structure InBounds (limits : Limits) (g : Grammar) (Object Args Output : Type) : Prop where
  epsilon_lt {i j : StateId} : j ∈ g.nfa.epsilons i → i < g.nfa.size ∧ j < g.nfa.size
  nfa_edge_lt {i j : StateId} {id : TermId} :
    (id, j) ∈ g.nfa.edges i → i < g.nfa.size ∧ j < g.nfa.size ∧ id < g.terms.size
  dfa_edge_lt {s j : StateId} {id : TermId} :
    (id, j) ∈ g.dfa.edges s → s < g.dfa.size ∧ j < g.dfa.size ∧ id < g.terms.size
  size_cores : g.subsets.cores.size = g.dfa.size
  size_pos : 1 ≤ g.dfa.size
  start_mem : ∃ core, g.subsets.cores[Dfa.start]? = some core ∧ Nfa.start ∈ core
  member_lt {core : StateSet} {i : StateId} : core ∈ g.subsets.cores.toList → i ∈ core → i < g.nfa.size
  nfa_built : Nfa.ofExpr? (g.ast.map (·.id)) = some g.nfa
  dfa_built : g.nfa.determinize? (some limits.states) = some (.ok g.subsets)
  labelled {id : TermId} : id < g.terms.size → ∃ t, g.terms.get? id = some t ∧ g.terms.label id = t.text
  reachable : ∃ order, g.dfa.reachable = some order
  compared {d : Dfa} : d.WellFormed → ∃ same, g.dfa.isomorphic? d = some same ∧ d.isomorphic? g.dfa = some same
  run (actions : Actions Object Args Output) (object : Object) (ops : List (Operation Args)) :
    (g.chain actions object).run? ops = some ((g.chain actions object).run ops)
  expected (actions : Actions Object Args Output) (object : Object) (ops : List (Operation Args)) :
    ((g.chain actions object).run ops).1.expected? = some ((g.chain actions object).run ops).1.expected
  canBuild (actions : Actions Object Args Output) (object : Object) (ops : List (Operation Args)) :
    ((g.chain actions object).run ops).1.isFinal? = some ((g.chain actions object).run ops).1.canBuild

end Grammar

variable {Object Args Output : Type}

theorem Grammar.within_chain {g : Grammar} (hsize : 0 < g.dfa.size) (actions : Actions Object Args Output)
    (object : Object) : (g.chain actions object).Within g := ⟨rfl, rfl, hsize⟩

theorem inBounds_of_compile {limits : Limits} {source : String} {g : Grammar}
    (h : Grammar.compile limits source = .ok g) : g.InBounds limits Object Args Output := by
  have hcompiled := Grammar.compiled_of_compile h
  have hfinished := Grammar.finished_of_compile h
  have hdfa : g.dfa.WellFormed := hfinished.wellFormed_dfa
  have hnfa := hcompiled.wellFormed
  have hrun : ∀ (actions : Actions Object Args Output) (object : Object) (ops : List (Operation Args)),
      ((g.chain actions object).run ops).1.Within g :=
    fun actions object ops => (Grammar.within_chain hfinished.size_pos actions object).run hdfa ops
  exact {
    epsilon_lt := fun he => hnfa.below _ [] _ (.inl ⟨rfl, he⟩)
    nfa_edge_lt := fun hedge => by
      obtain ⟨t, ht⟩ := hcompiled.exists_term_of_mem_nfa_edges hedge
      obtain ⟨hi, hj⟩ := hnfa.below _ _ _ (.inr ⟨_, rfl, hedge⟩)
      exact ⟨hi, hj, Grammar.lt_size_of_get? ht⟩
    dfa_edge_lt := fun hedge => by
      obtain ⟨t, ht⟩ := hcompiled.exists_term_of_mem_edges hedge
      exact ⟨Dfa.lt_size_of_mem_edges hedge, hdfa.edge_lt hedge, Grammar.lt_size_of_get? ht⟩
    size_cores := hfinished.size_eq
    size_pos := hfinished.size_pos
    start_mem := ⟨_, hfinished.start, Nfa.start_mem_closure hnfa⟩
    member_lt := hfinished.lt_size_of_mem hnfa
    nfa_built := by rw [Nfa.ofExpr?_eq, hcompiled.nfa_eq]
    dfa_built := by rw [Nfa.determinize?_eq hnfa, (Grammar.compile_eq_ok h).2.2]
    labelled := fun hid => by
      obtain ⟨t, ht⟩ : ∃ t, g.terms.get? _ = some t := ⟨_, Array.getElem?_eq_getElem hid⟩
      exact ⟨t, ht, by rw [TermTable.label, ht]⟩
    reachable := ⟨_, Subsets.reachable_of_determinize hnfa (Grammar.compile_eq_ok h).2.2⟩
    compared := fun hd => by
      have hcomm := Dfa.isomorphic?_comm hdfa hd
      rcases Dfa.isomorphic?_cases hdfa hd with ⟨hsame, _⟩ | ⟨hsame, _⟩
      · exact ⟨true, hsame, hcomm ▸ hsame⟩
      · exact ⟨false, hsame, hcomm ▸ hsame⟩
    run := fun actions object ops =>
      (Grammar.within_chain hfinished.size_pos actions object).run?_eq hcompiled hdfa ops
    expected := fun actions object ops => (hcompiled.standing (hrun actions object ops)).expected?_eq
    canBuild := fun actions object ops => (hcompiled.standing (hrun actions object ops)).isFinal?_eq }

theorem inBounds_loops : ∃ g, Grammar.compile ⟨2, 12⟩ "((a|b:c)+ d?)* e" = .ok g ∧
    g.InBounds ⟨2, 12⟩ (List RecordedCall) (List String) (List RecordedCall) := by
  have hsize : (Grammar.compile ⟨2, 12⟩ "((a|b:c)+ d?)* e").toOption.any (·.terms.size = 4) = true := by decide +kernel
  obtain ⟨g, hg, _⟩ := exists_ok_of_any hsize
  exact ⟨g, hg, inBounds_of_compile hg⟩

end CallGrammar
