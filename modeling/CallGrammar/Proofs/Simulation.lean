import CallGrammar.Nfa
import CallGrammar.Proofs.Search

namespace CallGrammar.Nfa

inductive Built : Nfa → Prop where
  | initial : Built initial
  | addState {n : Nfa} : Built n → Built n.addState
  | addEpsilon {n : Nfa} {source target : StateId} :
      Built n → source < n.size → target < n.size → Built (n.addEpsilon source target)
  | addEdge {n : Nfa} {source target : StateId} {term : TermId} :
      Built n → source < n.size → target < n.size → Built (n.addEdge source term target)

section edges

variable {β : Type} {n : Nfa} {source target i j : StateId} {term t : TermId}

theorem isFinal_eq_elim (n : Nfa) (i : StateId) : n.isFinal i = (n.states[i]?).elim false (·.isFinal) := by
  rw [isFinal]
  cases n.states[i]? <;> rfl

theorem elim_push_fresh (n : Nfa) (i : StateId) (view : NfaState → β) :
    (n.addState.states[i]?).elim (view (.fresh false)) view = (n.states[i]?).elim (view (.fresh false)) view := by
  rw [addState, Array.getElem?_push]
  split
  · rename_i h
    simp [h]
  · rfl

theorem epsilons_addState (n : Nfa) (i : StateId) : n.addState.epsilons i = n.epsilons i :=
  elim_push_fresh n i (·.epsilons)

theorem edges_addState (n : Nfa) (i : StateId) : n.addState.edges i = n.edges i := elim_push_fresh n i (·.edges)

theorem isFinal_addState (n : Nfa) (i : StateId) : n.addState.isFinal i = n.isFinal i := by
  rw [isFinal_eq_elim, isFinal_eq_elim]
  exact elim_push_fresh n i (·.isFinal)

theorem elim_modify {states : Array NfaState} {change : NfaState → NfaState} {view : NfaState → β} (default : β)
    (h : ∀ s, view (change s) = view s) :
    ((states.modify source change)[i]?).elim default view = (states[i]?).elim default view := by
  rw [Array.getElem?_modify]
  split
  · cases states[i]? with
    | none => rfl
    | some s => exact h s
  · rfl

theorem mem_epsilons_addEpsilon (h : source < n.size) :
    j ∈ (n.addEpsilon source target).epsilons i ↔ j ∈ n.epsilons i ∨ i = source ∧ j = target := by
  simp only [epsilons, addEpsilon, Array.getElem?_modify]
  split
  · rename_i his
    subst his
    rw [Array.getElem?_eq_getElem h]
    simp [NfaState.mem_addEpsilon]
  · rename_i his
    simp [Ne.symm his]

theorem edges_addEpsilon (n : Nfa) (source target i : StateId) : (n.addEpsilon source target).edges i = n.edges i :=
  elim_modify [] fun s => by
    rw [NfaState.addEpsilon]
    split <;> rfl

theorem isFinal_addEpsilon (n : Nfa) (source target i : StateId) :
    (n.addEpsilon source target).isFinal i = n.isFinal i := by
  rw [isFinal_eq_elim, isFinal_eq_elim]
  refine elim_modify false fun s => ?_
  rw [NfaState.addEpsilon]
  split <;> rfl

theorem mem_edges_addEdge (h : source < n.size) :
    (t, j) ∈ (n.addEdge source term target).edges i ↔ (t, j) ∈ n.edges i ∨ i = source ∧ t = term ∧ j = target := by
  simp only [edges, addEdge, Array.getElem?_modify]
  split
  · rename_i his
    subst his
    rw [Array.getElem?_eq_getElem h]
    simp [NfaState.mem_addEdge]
  · rename_i his
    simp [Ne.symm his]

theorem epsilons_addEdge (n : Nfa) (source : StateId) (term : TermId) (target i : StateId) :
    (n.addEdge source term target).epsilons i = n.epsilons i :=
  elim_modify [] fun s => by
    rw [NfaState.addEdge]
    split <;> rfl

theorem isFinal_addEdge (n : Nfa) (source : StateId) (term : TermId) (target i : StateId) :
    (n.addEdge source term target).isFinal i = n.isFinal i := by
  rw [isFinal_eq_elim, isFinal_eq_elim]
  refine elim_modify false fun s => ?_
  rw [NfaState.addEdge]
  split <;> rfl

end edges

structure WellFormed (n : Nfa) : Prop where
  two_le : 2 ≤ n.size
  epsilon_lt {i j : StateId} : j ∈ n.epsilons i → j < n.size
  edge_lt {i j : StateId} {t : TermId} : (t, j) ∈ n.edges i → j < n.size
  isFinal_iff {i : StateId} : n.isFinal i = true ↔ i = accept

theorem WellFormed.start_lt {n : Nfa} (h : n.WellFormed) : start < n.size := Nat.lt_of_lt_of_le (by decide) h.two_le

theorem WellFormed.accept_lt {n : Nfa} (h : n.WellFormed) : accept < n.size := Nat.lt_of_lt_of_le (by decide) h.two_le

theorem epsilons_initial (i : StateId) : initial.epsilons i = [] := by
  rcases i with _ | _ | i <;> rfl

theorem edges_initial (i : StateId) : initial.edges i = [] := by
  rcases i with _ | _ | i <;> rfl

theorem wellFormed_initial : initial.WellFormed where
  two_le := Nat.le_refl _
  epsilon_lt h := by simp [epsilons_initial] at h
  edge_lt h := by simp [edges_initial] at h
  isFinal_iff {i} := by rcases i with _ | _ | i <;> simp [isFinal, initial, accept, NfaState.fresh]

theorem WellFormed.addState {n : Nfa} (h : n.WellFormed) : n.addState.WellFormed where
  two_le := by
    rw [size_addState]
    exact Nat.le_succ_of_le h.two_le
  epsilon_lt hj := by
    rw [epsilons_addState] at hj
    rw [size_addState]
    exact Nat.lt_succ_of_lt (h.epsilon_lt hj)
  edge_lt hj := by
    rw [edges_addState] at hj
    rw [size_addState]
    exact Nat.lt_succ_of_lt (h.edge_lt hj)
  isFinal_iff {i} := by rw [isFinal_addState, h.isFinal_iff]

theorem WellFormed.addStates {n : Nfa} (h : n.WellFormed) (k : Nat) : (n.addStates k).WellFormed := by
  induction k generalizing n with
  | zero => exact h
  | succ k ih => exact ih h.addState

theorem WellFormed.addEpsilon {n : Nfa} (h : n.WellFormed) {source target : StateId} (hs : source < n.size)
    (ht : target < n.size) : (n.addEpsilon source target).WellFormed where
  two_le := by rw [size_addEpsilon]; exact h.two_le
  epsilon_lt hj := by
    rw [size_addEpsilon]
    rcases (mem_epsilons_addEpsilon hs).mp hj with hj | ⟨_, rfl⟩
    · exact h.epsilon_lt hj
    · exact ht
  edge_lt hj := by
    rw [size_addEpsilon]
    rw [edges_addEpsilon] at hj
    exact h.edge_lt hj
  isFinal_iff {i} := by rw [isFinal_addEpsilon, h.isFinal_iff]

theorem WellFormed.addEdge {n : Nfa} (h : n.WellFormed) {source target : StateId} {term : TermId}
    (hs : source < n.size) (ht : target < n.size) : (n.addEdge source term target).WellFormed where
  two_le := by rw [size_addEdge]; exact h.two_le
  epsilon_lt hj := by
    rw [size_addEdge]
    rw [epsilons_addEdge] at hj
    exact h.epsilon_lt hj
  edge_lt hj := by
    rw [size_addEdge]
    rcases (mem_edges_addEdge hs).mp hj with hj | ⟨_, _, rfl⟩
    · exact h.edge_lt hj
    · exact ht
  isFinal_iff {i} := by rw [isFinal_addEdge, h.isFinal_iff]

theorem Built.wellFormed {n : Nfa} (h : n.Built) : n.WellFormed := by
  induction h with
  | initial => exact wellFormed_initial
  | addState _ ih => exact ih.addState
  | addEpsilon _ hs ht ih => exact ih.addEpsilon hs ht
  | addEdge _ hs ht ih => exact ih.addEdge hs ht

section paths

variable {n : Nfa} {i j k : StateId} {t : TermId} {u v w : List TermId}

theorem path_of_leads (h : Search.Leads n.epsilons i j) (h' : n.Path j w k) : n.Path i w k := by
  induction h using Relation.ReflTransGen.head_induction_on with
  | refl => exact h'
  | head hij _ ih => exact .epsilon hij ih

theorem leads_of_path_nil (h : n.Path i [] j) : Search.Leads n.epsilons i j := by
  generalize hw : ([] : List TermId) = w at h
  induction h with
  | nil => exact .refl
  | epsilon he _ ih => exact .head he (ih hw)
  | edge => simp at hw

theorem leads_iff_path_nil : Search.Leads n.epsilons i j ↔ n.Path i [] j :=
  ⟨fun h => path_of_leads h (.nil j), leads_of_path_nil⟩

theorem path_append_iff : n.Path i (u ++ v) k ↔ ∃ j, n.Path i u j ∧ n.Path j v k := by
  constructor
  · intro h
    generalize hw : u ++ v = w at h
    induction h generalizing u with
    | nil i =>
      obtain ⟨rfl, rfl⟩ := List.append_eq_nil_iff.mp hw
      exact ⟨i, .nil i, .nil i⟩
    | epsilon he _ ih =>
      obtain ⟨j, hu, hv⟩ := ih hw
      exact ⟨j, .epsilon he hu, hv⟩
    | @edge i j k t w he hw' ih =>
      cases u with
      | nil =>
        rw [List.nil_append] at hw
        exact ⟨i, .nil i, hw.symm ▸ .edge he hw'⟩
      | cons s u =>
        obtain ⟨rfl, rfl⟩ := List.cons_eq_cons.mp hw
        obtain ⟨j, hu, hv⟩ := ih rfl
        exact ⟨j, .edge he hu, hv⟩
  · rintro ⟨j, hu, hv⟩
    exact hu.append hv

theorem path_cons_iff :
    n.Path i (t :: w) k ↔ ∃ j, n.Path i [] j ∧ ∃ j', (t, j') ∈ n.edges j ∧ n.Path j' w k := by
  constructor
  · intro h
    generalize hw : t :: w = tw at h
    induction h with
    | nil => simp at hw
    | epsilon he _ ih =>
      obtain ⟨j, hj, hrest⟩ := ih hw
      exact ⟨j, .epsilon he hj, hrest⟩
    | @edge i j k t w he hpath ih =>
      obtain ⟨rfl, rfl⟩ := List.cons_eq_cons.mp hw
      exact ⟨i, .nil i, j, he, hpath⟩
  · rintro ⟨j, hj, j', he, hpath⟩
    exact hj.append (.edge he hpath)

theorem WellFormed.path_lt (h : n.WellFormed) (hi : i < n.size) (hp : n.Path i w j) : j < n.size := by
  induction hp with
  | nil => exact hi
  | epsilon he _ ih => exact ih (h.epsilon_lt he)
  | edge he _ ih => exact ih (h.edge_lt he)

end paths

section simulation

variable {n : Nfa} {j : StateId} {t : TermId} {w : List TermId}

theorem mem_closure_iff (h : n.WellFormed) {seed : List StateId} (hs : ∀ i ∈ seed, i < n.size) :
    j ∈ n.closure seed ↔ ∃ i ∈ seed, n.Path i [] j := by
  have hnext : ∀ i < n.size, ∀ j ∈ n.epsilons i, j < n.size := fun _ _ _ => h.epsilon_lt
  rw [closure, StateSet.mem_ofList, Search.mem_order_iff hnext hs (Nat.le_succ _)]
  simp only [leads_iff_path_nil]

theorem start_mem_closure (h : n.WellFormed) : start ∈ n.closure [start] :=
  (mem_closure_iff h (by simpa using h.start_lt)).mpr ⟨start, List.mem_cons_self, .nil _⟩

theorem mem_leaving {s : StateSet} : (t, j) ∈ n.leaving s ↔ ∃ i ∈ s, (t, j) ∈ n.edges i := by
  simp [leaving, StateSet.mem_toList]

theorem mem_targets {s : StateSet} : j ∈ n.targets s t ↔ ∃ i ∈ s, (t, j) ∈ n.edges i := by
  simp [targets, mem_leaving]

theorem mem_advance_iff (h : n.WellFormed) {s : StateSet} :
    j ∈ n.advance s t ↔ ∃ i ∈ s, ∃ i', (t, i') ∈ n.edges i ∧ n.Path i' [] j := by
  rw [advance, mem_closure_iff h]
  · simp only [mem_targets]
    constructor
    · rintro ⟨i', ⟨i, hi, he⟩, hp⟩
      exact ⟨i, hi, i', he, hp⟩
    · rintro ⟨i, hi, i', he, hp⟩
      exact ⟨i', ⟨i, hi, he⟩, hp⟩
  · intro i' hi'
    obtain ⟨i, _, he⟩ := mem_targets.mp hi'
    exact h.edge_lt he

theorem mem_terms {s : StateSet} : t ∈ n.terms s ↔ ∃ i ∈ s, ∃ j, (t, j) ∈ n.edges i := by
  simp only [terms, List.mem_eraseDups, List.mem_map, Prod.exists, exists_and_right, exists_eq_right, mem_leaving]
  constructor
  · rintro ⟨j, i, hi, he⟩
    exact ⟨i, hi, j, he⟩
  · rintro ⟨i, hi, j, he⟩
    exact ⟨j, i, hi, he⟩

theorem mem_nextTerms {s : StateSet} : t ∈ n.nextTerms s ↔ t ∈ n.terms s := List.mem_mergeSort

theorem anyFinal_iff {s : StateSet} : n.anyFinal s = true ↔ ∃ i ∈ s, n.isFinal i = true := by
  simp [anyFinal, StateSet.mem_toList]

def Closed (n : Nfa) (s : StateSet) : Prop := ∀ i ∈ s, ∀ j, n.Path i [] j → j ∈ s

theorem closed_closure (h : n.WellFormed) {seed : List StateId} (hs : ∀ i ∈ seed, i < n.size) :
    n.Closed (n.closure seed) := by
  intro i hi j hij
  obtain ⟨k, hk, hki⟩ := (mem_closure_iff h hs).mp hi
  exact (mem_closure_iff h hs).mpr ⟨k, hk, hki.append hij⟩

theorem closed_advance (h : n.WellFormed) (s : StateSet) (t : TermId) : n.Closed (n.advance s t) := by
  intro i hi j hij
  obtain ⟨k, hk, k', he, hki⟩ := (mem_advance_iff h).mp hi
  exact (mem_advance_iff h).mpr ⟨k, hk, k', he, hki.append hij⟩

theorem mem_simulateFrom_iff (h : n.WellFormed) {s : StateSet} (hs : n.Closed s) :
    j ∈ n.simulateFrom s w ↔ ∃ i ∈ s, n.Path i w j := by
  induction w generalizing s with
  | nil =>
    rw [simulateFrom]
    constructor
    · intro hj
      exact ⟨j, hj, .nil j⟩
    · rintro ⟨i, hi, hij⟩
      exact hs i hi j hij
  | cons t ts ih =>
    rw [simulateFrom]
    split
    · rename_i hempty
      have hnone := StateSet.isEmpty_iff.mp hempty
      simp [hnone]
    · rw [ih (closed_advance h s t)]
      constructor
      · rintro ⟨i, hi, hp⟩
        obtain ⟨k, hk, k', he, hki⟩ := (mem_advance_iff h).mp hi
        exact ⟨k, hk, .edge he (hki.append hp)⟩
      · rintro ⟨i, hi, hp⟩
        obtain ⟨k, hik, k', he, hp⟩ := path_cons_iff.mp hp
        exact ⟨k', (mem_advance_iff h).mpr ⟨k, hs i hi k hik, k', he, .nil k'⟩, hp⟩

theorem mem_simulate_iff (h : n.WellFormed) : j ∈ n.simulate w ↔ n.Path start w j := by
  have hs : ∀ i ∈ [start], i < n.size := by simpa using h.start_lt
  rw [simulate, mem_simulateFrom_iff h (closed_closure h hs)]
  simp only [mem_closure_iff h hs, List.mem_singleton, exists_eq_left]
  exact path_append_iff.symm

theorem accepts_iff_path (h : n.WellFormed) : n.accepts w = true ↔ n.Path start w accept := by
  rw [accepts, anyFinal_iff]
  simp only [mem_simulate_iff h, h.isFinal_iff, exists_eq_right]

end simulation

end CallGrammar.Nfa
