import CallGrammar.Dfa.Subsets
import CallGrammar.Proofs.Numbering
import CallGrammar.Proofs.Runs
import CallGrammar.Proofs.Simulation
import Mathlib.Data.List.Perm.Subperm

namespace CallGrammar

theorem Nfa.simulate_concat {n : Nfa} (hn : n.WellFormed) (w : List TermId) (t : TermId) :
    n.simulate (w ++ [t]) = n.advance (n.simulate w) t := by
  apply StateSet.ext
  intro j
  rw [mem_simulate_iff hn, path_append_iff, mem_advance_iff hn]
  simp only [mem_simulate_iff hn]
  constructor
  · rintro ⟨i, hw, ht⟩
    obtain ⟨k, hik, k', he, hp⟩ := path_cons_iff.mp ht
    have hwk := hw.append hik
    rw [List.append_nil] at hwk
    exact ⟨k, hwk, k', he, hp⟩
  · rintro ⟨k, hwk, k', he, hp⟩
    exact ⟨k, hwk, .edge he hp⟩

theorem Nfa.isEmpty_advance_iff {n : Nfa} (hn : n.WellFormed) {s : StateSet} {t : TermId} :
    (n.advance s t).isEmpty = true ↔ t ∉ n.terms s := by
  rw [StateSet.isEmpty_iff, mem_terms]
  simp only [mem_advance_iff hn, not_exists, not_and]
  constructor
  · rintro h i hi j he
    exact h j i hi j he (.nil j)
  · rintro h j i hi k he _
    exact h i hi k he

theorem StateSet.eq_of_isEmpty {s t : StateSet} (hs : s.isEmpty = true) (ht : t.isEmpty = true) : s = t :=
  ext fun i => iff_of_false (isEmpty_iff.mp hs i) (isEmpty_iff.mp ht i)

theorem Nfa.anyFinal_of_isEmpty {n : Nfa} {s : StateSet} (hs : s.isEmpty = true) : n.anyFinal s = false := by
  rw [Bool.eq_false_iff]
  intro hfinal
  obtain ⟨i, hi, _⟩ := anyFinal_iff.mp hfinal
  exact StateSet.isEmpty_iff.mp hs i hi

namespace Subsets

open Nfa (start)

variable {limit : Option Nat} {n : Nfa} {core : StateSet} {cores cores' : Array StateSet} {i : StateId}

theorem number_cases (h : number limit cores core = .ok (cores', i)) :
    cores' = cores ∧ cores[i]? = some core ∨ cores' = cores.push core ∧ i = cores.size ∧ core ∉ cores.toList := by
  unfold number at h
  cases hfound : cores.idxOf? core with
  | some k =>
    rw [hfound] at h
    obtain ⟨rfl, rfl⟩ := Prod.mk.inj (Except.ok.inj h)
    exact .inl ⟨rfl, getElem?_of_idxOf?_eq_some hfound⟩
  | none =>
    have hnot : core ∉ cores.toList := by simpa [Array.idxOf?_eq_none_iff] using hfound
    rw [hfound] at h
    cases limit with
    | none =>
      obtain ⟨rfl, rfl⟩ := Prod.mk.inj (Except.ok.inj h)
      exact .inr ⟨rfl, rfl, hnot⟩
    | some k =>
      simp only at h
      split at h
      · simp at h
      · obtain ⟨rfl, rfl⟩ := Prod.mk.inj (Except.ok.inj h)
        exact .inr ⟨rfl, rfl, hnot⟩

theorem exists_number_none (cores : Array StateSet) (core : StateSet) : ∃ r, number none cores core = .ok r := by
  unfold number
  cases cores.idxOf? core <;> exact ⟨_, rfl⟩

structure Grown (cores cores' : Array StateSet) : Prop where
  kept {i : StateId} {c : StateSet} : cores[i]? = some c → cores'[i]? = some c
  nodup : cores.toList.Nodup → cores'.toList.Nodup

theorem Grown.refl (cores : Array StateSet) : Grown cores cores := ⟨id, id⟩

theorem Grown.trans {cores'' : Array StateSet} (h : Grown cores cores') (h' : Grown cores' cores'') :
    Grown cores cores'' := ⟨fun hi => h'.kept (h.kept hi), fun hn => h'.nodup (h.nodup hn)⟩

theorem Grown.push (h : core ∉ cores.toList) : Grown cores (cores.push core) where
  kept {i c} hi := by
    have hlt := (Array.getElem?_eq_some_iff.mp hi).1
    rw [Array.getElem?_push_lt hlt, ← Array.getElem?_eq_getElem hlt]
    exact hi
  nodup hn := by
    rw [Array.toList_push, List.nodup_append]
    refine ⟨hn, by simp, ?_⟩
    rintro c hc c' hc' rfl
    exact h (List.mem_singleton.mp hc' ▸ hc)

theorem grown_number (h : number limit cores core = .ok (cores', i)) : Grown cores cores' := by
  rcases number_cases h with ⟨rfl, _⟩ | ⟨rfl, _, hnot⟩
  · exact .refl _
  · exact .push hnot

theorem getElem?_number (h : number limit cores core = .ok (cores', i)) : cores'[i]? = some core := by
  rcases number_cases h with ⟨rfl, hi⟩ | ⟨rfl, rfl, _⟩
  · exact hi
  · exact Array.getElem?_push_size

theorem mem_number {c : StateSet} (h : number limit cores core = .ok (cores', i)) (hc : c ∈ cores'.toList) :
    c ∈ cores.toList ∨ c = core := by
  rcases number_cases h with ⟨rfl, _⟩ | ⟨rfl, _, _⟩
  · exact .inl hc
  · simpa using hc

section edges

variable {ts : List TermId} {state state' : DfaState} {t : TermId} {j : StateId}

theorem exists_addEdges_none (n : Nfa) (core : StateSet) (ts : List TermId) (cores : Array StateSet) (state : DfaState) :
    ∃ r, addEdges none n core ts cores state = .ok r := by
  induction ts generalizing cores state with
  | nil => exact ⟨_, rfl⟩
  | cons t ts ih =>
    obtain ⟨⟨cores', j⟩, hnumber⟩ := exists_number_none cores (n.advance core t)
    rw [addEdges, hnumber]
    exact ih cores' (state.insert t j)

structure EdgesAdded (n : Nfa) (core : StateSet) (ts : List TermId) (cores cores' : Array StateSet)
    (state state' : DfaState) : Prop where
  grown : Grown cores cores'
  found {c : StateSet} : c ∈ cores'.toList → c ∈ cores.toList ∨ ∃ t ∈ ts, c = n.advance core t
  isFinal : state'.isFinal = state.isFinal
  terms : state'.terms = state.terms ++ ts
  edges {t : TermId} {j : StateId} : (t, j) ∈ state'.edges → (t, j) ∈ state.edges ∨ cores'[j]? = some (n.advance core t)

theorem edgesAdded_addEdges (hts : ts.Nodup) (hnew : ∀ t ∈ ts, t ∉ state.terms)
    (h : addEdges limit n core ts cores state = .ok (cores', state')) : EdgesAdded n core ts cores cores' state state' := by
  induction ts generalizing cores state with
  | nil =>
    obtain ⟨rfl, rfl⟩ := Prod.mk.inj (Except.ok.inj h)
    exact ⟨.refl _, .inl, rfl, by simp, .inl⟩
  | cons t ts ih =>
    rw [addEdges] at h
    split at h
    · rename_i middle target hnumber
      have hinsert := DfaState.edges_insert_of_notMem (j := target) (hnew t List.mem_cons_self)
      have hterms := DfaState.terms_insert_of_notMem (hnew t List.mem_cons_self) target
      have hfresh := DfaState.notMem_terms_insert hts hnew target
      have hrest := ih (List.nodup_cons.mp hts).2 hfresh h
      refine ⟨(grown_number hnumber).trans hrest.grown, ?_, ?_, ?_, ?_⟩
      · intro c hc
        rcases hrest.found hc with hc | ⟨x, hx, rfl⟩
        · exact (mem_number hnumber hc).imp_right fun h => ⟨t, List.mem_cons_self, h⟩
        · exact .inr ⟨x, List.mem_cons_of_mem t hx, rfl⟩
      · rw [hrest.isFinal, DfaState.isFinal_insert]
      · rw [hrest.terms, hterms, List.append_assoc, List.singleton_append]
      · intro x j hxj
        rcases hrest.edges hxj with hxj | hxj
        · rw [hinsert, List.mem_append, List.mem_singleton] at hxj
          refine hxj.imp_right fun hpair => ?_
          obtain ⟨rfl, rfl⟩ := Prod.mk.inj hpair
          exact hrest.grown.kept (getElem?_number hnumber)
        · exact .inr hxj
    · simp at h

end edges

structure Stands (n : Nfa) (cores : Array StateSet) (core : StateSet) (state : DfaState) : Prop where
  isFinal : state.isFinal = n.anyFinal core
  terms : state.terms = n.terms core
  edges {t : TermId} {j : StateId} : (t, j) ∈ state.edges → cores[j]? = some (n.advance core t)

theorem Stands.mono {state : DfaState} (h : Stands n cores core state) (hgrown : Grown cores cores') :
    Stands n cores' core state := ⟨h.isFinal, h.terms, fun he => hgrown.kept (h.edges he)⟩

theorem stands_addEdges {state : DfaState}
    (h : addEdges limit n core (n.terms core) cores (.fresh (n.anyFinal core)) = .ok (cores', state)) :
    Stands n cores' core state := by
  have hnodup : (n.terms core).Nodup := nodup_eraseDups _
  have hadded := edgesAdded_addEdges hnodup (by simp [DfaState.terms, DfaState.fresh]) h
  refine ⟨hadded.isFinal, by simpa [DfaState.terms, DfaState.fresh] using hadded.terms, ?_⟩
  intro t j htj
  exact (hadded.edges htj).resolve_left (by simp [DfaState.fresh])

structure Progress (n : Nfa) (cores : Array StateSet) (states : Array DfaState) : Prop where
  start : cores[0]? = some (n.closure [start])
  nodup : cores.toList.Nodup
  size_le : states.size ≤ cores.size
  traced {c : StateSet} : c ∈ cores.toList → c.isEmpty = false ∧ ∃ w, n.simulate w = c
  stands {i : StateId} {state : DfaState} :
    states[i]? = some state → ∃ core, cores[i]? = some core ∧ Stands n cores core state

theorem isEmpty_eq_false_of_mem {s : StateSet} {i : Nat} (h : i ∈ s) : s.isEmpty = false :=
  Bool.eq_false_iff.mpr fun hempty => StateSet.isEmpty_iff.mp hempty i h

theorem progress_initial (hn : n.WellFormed) (h : number limit #[] (n.closure [start]) = .ok (cores, i)) :
    Progress n cores #[] := by
  have hs : ∀ i ∈ [start], i < n.size := by simpa using hn.start_lt
  have hcores : cores = #[n.closure [start]] := by
    rcases number_cases h with ⟨_, hi⟩ | ⟨rfl, _, _⟩
    · simp at hi
    · rfl
  subst hcores
  refine ⟨rfl, by simp, by simp, ?_, by simp⟩
  intro c hc
  obtain rfl : c = n.closure [start] := by simpa using hc
  exact ⟨isEmpty_eq_false_of_mem ((Nfa.mem_closure_iff hn hs).mpr ⟨start, by simp, .nil start⟩), [], rfl⟩

theorem Progress.step (hn : n.WellFormed) {states : Array DfaState} {state : DfaState} (h : Progress n cores states)
    (hcore : cores[states.size]? = some core)
    (hadd : addEdges limit n core (n.terms core) cores (.fresh (n.anyFinal core)) = .ok (cores', state)) :
    Progress n cores' (states.push state) := by
  have hnodup : (n.terms core).Nodup := nodup_eraseDups _
  have hadded := edgesAdded_addEdges hnodup (by simp [DfaState.terms, DfaState.fresh]) hadd
  have hmem : core ∈ cores.toList := Array.mem_toList_iff.mpr (Array.mem_of_getElem? hcore)
  refine ⟨hadded.grown.kept h.start, hadded.grown.nodup h.nodup, ?_, ?_, ?_⟩
  · have hlt := (Array.getElem?_eq_some_iff.mp (hadded.grown.kept hcore)).1
    rw [Array.size_push]
    exact hlt
  · intro c hc
    rcases hadded.found hc with hc | ⟨t, ht, rfl⟩
    · exact h.traced hc
    · obtain ⟨_, w, rfl⟩ := h.traced hmem
      refine ⟨?_, w ++ [t], Nfa.simulate_concat hn w t⟩
      exact Bool.eq_false_iff.mpr fun hempty => (Nfa.isEmpty_advance_iff hn).mp hempty ht
  · intro i s hs
    rw [Array.getElem?_push] at hs
    split at hs
    · rename_i hi
      obtain rfl := Option.some.inj hs
      exact ⟨core, hi ▸ hadded.grown.kept hcore, stands_addEdges hadd⟩
    · obtain ⟨c, hc, hstands⟩ := h.stands hs
      exact ⟨c, hadded.grown.kept hc, hstands.mono hadded.grown⟩

theorem Progress.size_cores_lt (hn : n.WellFormed) {states : Array DfaState} (h : Progress n cores states) :
    cores.size < Nat.pow 2 n.size := by
  have hbits : ∀ c ∈ cores.toList, c.bits < 2 ^ n.size := by
    intro c hc
    obtain ⟨_, w, rfl⟩ := h.traced hc
    apply Nat.lt_pow_two_of_testBit
    intro i hi
    by_contra hbit
    have hmem : i ∈ n.simulate w := by
      rw [StateSet.mem_iff, StateSet.contains]
      simpa using hbit
    exact Nat.not_lt_of_le hi (hn.path_lt hn.start_lt ((Nfa.mem_simulate_iff hn).mp hmem))
  have hinj : ∀ c ∈ cores.toList, ∀ d ∈ cores.toList, c.bits = d.bits → c = d := by
    rintro ⟨_⟩ _ ⟨_⟩ _ rfl
    rfl
  have hzero : 0 ∉ cores.toList.map (·.bits) := by
    intro hmem
    obtain ⟨c, hc, hbits⟩ := List.mem_map.mp hmem
    have hne := (h.traced hc).1
    simp [StateSet.isEmpty, hbits] at hne
  have hsubset : 0 :: cores.toList.map (·.bits) ⊆ List.range (2 ^ n.size) := by
    refine List.cons_subset.mpr ⟨List.mem_range.mpr (Nat.two_pow_pos _), ?_⟩
    intro x hx
    obtain ⟨c, hc, rfl⟩ := List.mem_map.mp hx
    exact List.mem_range.mpr (hbits c hc)
  have hnodup : (0 :: cores.toList.map (·.bits)).Nodup := List.nodup_cons.mpr ⟨hzero, h.nodup.map_on hinj⟩
  have hlength := (List.subperm_of_subset hnodup hsubset).length_le
  rwa [List.length_cons, List.length_map, List.length_range, Array.length_toList] at hlength

structure Finished (n : Nfa) (r : Subsets) : Prop extends Progress n r.cores r.dfa.states where
  size_eq : r.cores.size = r.dfa.size

variable {r : Subsets} {s : StateId} {t : TermId} {u v w : List TermId}

theorem finished_build (hn : n.WellFormed) {rounds : Nat} {states : Array DfaState} (h : Progress n cores states)
    (hrounds : Nat.pow 2 n.size ≤ rounds + states.size + 1) (hr : build limit n rounds cores states = .ok r) :
    Finished n r := by
  induction rounds generalizing cores states with
  | zero =>
    obtain rfl := Except.ok.inj hr
    refine ⟨h, Nat.le_antisymm ?_ h.size_le⟩
    have hcores := h.size_cores_lt hn
    change cores.size ≤ states.size
    omega
  | succ rounds ih =>
    rw [build] at hr
    split at hr
    · rename_i hnone
      obtain rfl := Except.ok.inj hr
      exact ⟨h, Nat.le_antisymm (Array.getElem?_eq_none_iff.mp hnone) h.size_le⟩
    · rename_i core hcore
      split at hr
      · rename_i hadd
        refine ih (h.step hn hcore hadd) ?_ hr
        rw [Array.size_push]
        omega
      · simp at hr

theorem finished_determinize (hn : n.WellFormed) (h : n.determinize limit = .ok r) : Finished n r := by
  rw [Nfa.determinize] at h
  split at h
  · rename_i cores i hnumber
    exact finished_build hn (progress_initial hn hnumber) (Nat.le_succ _) h
  · simp at h

theorem exists_build_none (n : Nfa) (rounds : Nat) (cores : Array StateSet) (states : Array DfaState) :
    ∃ r, build none n rounds cores states = .ok r := by
  induction rounds generalizing cores states with
  | zero => exact ⟨_, rfl⟩
  | succ rounds ih =>
    rw [build]
    split
    · exact ⟨_, rfl⟩
    · rename_i core _
      obtain ⟨⟨cores', state⟩, hadd⟩ := exists_addEdges_none n core (n.terms core) cores (.fresh (n.anyFinal core))
      rw [hadd]
      exact ih cores' (states.push state)

theorem exists_determinize_none (n : Nfa) : ∃ r, n.determinize none = .ok r := by
  obtain ⟨⟨cores, i⟩, hnumber⟩ := exists_number_none #[] (n.closure [start])
  rw [Nfa.determinize, hnumber]
  exact exists_build_none n _ cores #[]

theorem number_eq_error {k : Nat} {e : StateLimitExceeded} (h : number (some k) cores core = .error e) : e = ⟨k⟩ := by
  unfold number at h
  cases hfound : cores.idxOf? core with
  | some j =>
    rw [hfound] at h
    cases h
  | none =>
    rw [hfound] at h
    simp only at h
    split at h
    · exact (Except.error.inj h).symm
    · cases h

theorem addEdges_eq_error {k : Nat} {e : StateLimitExceeded} {ts : List TermId} {state : DfaState}
    (h : addEdges (some k) n core ts cores state = .error e) : e = ⟨k⟩ := by
  induction ts generalizing cores state with
  | nil => cases h
  | cons t ts ih =>
    rw [addEdges] at h
    split at h
    · exact ih h
    · rename_i hnumber
      obtain rfl := Except.error.inj h
      exact number_eq_error hnumber

theorem build_eq_error {k rounds : Nat} {e : StateLimitExceeded} {states : Array DfaState}
    (h : build (some k) n rounds cores states = .error e) : e = ⟨k⟩ := by
  induction rounds generalizing cores states with
  | zero => cases h
  | succ rounds ih =>
    rw [build] at h
    split at h
    · cases h
    · split at h
      · exact ih h
      · rename_i hadd
        obtain rfl := Except.error.inj h
        exact addEdges_eq_error hadd

theorem determinize_eq_error {k : Nat} {e : StateLimitExceeded} (h : n.determinize (some k) = .error e) : e = ⟨k⟩ := by
  rw [Nfa.determinize] at h
  split at h
  · exact build_eq_error h
  · rename_i hnumber
    obtain rfl := Except.error.inj h
    exact number_eq_error hnumber

namespace Finished

theorem exists_stands (h : Finished n r) (hcore : r.cores[i]? = some core) :
    ∃ state, r.dfa.states[i]? = some state ∧ Stands n r.cores core state := by
  have hlt : i < r.dfa.states.size := Nat.lt_of_lt_of_eq (Array.getElem?_eq_some_iff.mp hcore).1 h.size_eq
  obtain ⟨core', hcore', hstands⟩ := h.stands (Array.getElem?_eq_getElem hlt)
  obtain rfl : core' = core := Option.some.inj (hcore'.symm.trans hcore)
  exact ⟨_, Array.getElem?_eq_getElem hlt, hstands⟩

theorem isEmpty_eq_false (h : Finished n r) (hcore : r.cores[i]? = some core) : core.isEmpty = false :=
  (h.traced (Array.mem_toList_iff.mpr (Array.mem_of_getElem? hcore))).1

theorem eq_of_getElem?_eq (h : Finished n r) (hi : r.cores[i]? = some core) (hs : r.cores[s]? = some core) : i = s := by
  rw [← Array.getElem?_toList] at hi hs
  exact (List.getElem?_inj (List.getElem?_eq_some_iff.mp hi).1 h.nodup).mp (hi.trans hs.symm)

theorem getElem?_of_step (h : Finished n r) (hcore : r.cores[i]? = some core) (hstep : r.dfa.step i t = some s) :
    r.cores[s]? = some (n.advance core t) := by
  obtain ⟨state, hstate, hstands⟩ := h.exists_stands hcore
  rw [Dfa.step, Dfa.get?, hstate, Option.bind_some, DfaState.next?_eq_some_iff] at hstep
  exact hstands.edges hstep

theorem isEmpty_of_step_eq_none (hn : n.WellFormed) (h : Finished n r) (hcore : r.cores[i]? = some core)
    (hstep : r.dfa.step i t = none) : (n.advance core t).isEmpty = true := by
  obtain ⟨state, hstate, hstands⟩ := h.exists_stands hcore
  rw [Dfa.step, Dfa.get?, hstate, Option.bind_some, DfaState.next?_eq_none_iff, hstands.terms] at hstep
  exact (Nfa.isEmpty_advance_iff hn).mpr hstep

theorem getElem?_of_runFrom (h : Finished n r) (hcore : r.cores[i]? = some core) (hrun : r.dfa.runFrom i w = some s) :
    r.cores[s]? = some (n.simulateFrom core w) := by
  induction w generalizing i core with
  | nil =>
    obtain rfl := Option.some.inj hrun
    exact hcore
  | cons t ts ih =>
    rw [Dfa.runFrom, Option.bind_eq_some_iff] at hrun
    obtain ⟨j, hstep, hrun⟩ := hrun
    rw [Nfa.simulateFrom, h.isEmpty_eq_false hcore]
    exact ih (h.getElem?_of_step hcore hstep) hrun

theorem isEmpty_of_runFrom_eq_none (hn : n.WellFormed) (h : Finished n r) (hcore : r.cores[i]? = some core)
    (hrun : r.dfa.runFrom i w = none) : (n.simulateFrom core w).isEmpty = true := by
  induction w generalizing i core with
  | nil => simp [Dfa.runFrom] at hrun
  | cons t ts ih =>
    rw [Nfa.simulateFrom, h.isEmpty_eq_false hcore]
    cases hstep : r.dfa.step i t with
    | some j =>
      rw [Dfa.runFrom, hstep, Option.bind_some] at hrun
      exact ih (h.getElem?_of_step hcore hstep) hrun
    | none =>
      have hempty := h.isEmpty_of_step_eq_none hn hcore hstep
      cases ts with
      | nil => exact hempty
      | cons t' ts =>
        simp only [Bool.false_eq_true, if_false]
        rw [Nfa.simulateFrom, hempty]
        exact hempty

theorem getElem?_of_run (h : Finished n r) (hrun : r.dfa.run w = some s) : r.cores[s]? = some (n.simulate w) :=
  h.getElem?_of_runFrom h.start hrun

theorem run_eq_none_iff (hn : n.WellFormed) (h : Finished n r) : r.dfa.run w = none ↔ (n.simulate w).isEmpty = true := by
  refine ⟨h.isEmpty_of_runFrom_eq_none hn h.start, fun hempty => ?_⟩
  cases hrun : r.dfa.run w with
  | none => rfl
  | some s =>
    rw [h.isEmpty_eq_false (h.getElem?_of_run hrun)] at hempty
    exact absurd hempty (by simp)

theorem exists_run_iff (hn : n.WellFormed) (h : Finished n r) :
    (∃ s, r.dfa.run w = some s) ↔ (n.simulate w).isEmpty = false := by
  rw [← Option.isSome_iff_exists, ← Option.ne_none_iff_isSome, ne_eq, h.run_eq_none_iff hn, Bool.not_eq_true]

theorem isFinal_of_run (h : Finished n r) (hrun : r.dfa.run w = some s) :
    r.dfa.isFinal s = n.anyFinal (n.simulate w) := by
  obtain ⟨state, hstate, hstands⟩ := h.exists_stands (h.getElem?_of_run hrun)
  rw [Dfa.isFinal, Dfa.get?, hstate]
  exact hstands.isFinal

theorem exists_edge_iff (h : Finished n r) (hrun : r.dfa.run w = some s) :
    (∃ j, (t, j) ∈ r.dfa.edges s) ↔ t ∈ n.nextTerms (n.simulate w) := by
  obtain ⟨state, hstate, hstands⟩ := h.exists_stands (h.getElem?_of_run hrun)
  rw [Nfa.mem_nextTerms, ← hstands.terms, Dfa.edges, Dfa.get?, hstate]
  simp [DfaState.terms]

theorem accepts_eq (hn : n.WellFormed) (h : Finished n r) (w : List TermId) : r.dfa.accepts w = n.accepts w := by
  rw [Dfa.accepts, Nfa.accepts]
  cases hrun : r.dfa.run w with
  | some s => exact h.isFinal_of_run hrun
  | none => exact (Nfa.anyFinal_of_isEmpty ((h.run_eq_none_iff hn).mp hrun)).symm

theorem run_eq_iff (hn : n.WellFormed) (h : Finished n r) :
    r.dfa.run u = r.dfa.run v ↔ n.simulate u = n.simulate v := by
  constructor
  · intro huv
    cases hu : r.dfa.run u with
    | some s => exact Option.some.inj ((h.getElem?_of_run hu).symm.trans (h.getElem?_of_run (huv ▸ hu)))
    | none => exact StateSet.eq_of_isEmpty ((h.run_eq_none_iff hn).mp hu) ((h.run_eq_none_iff hn).mp (huv ▸ hu))
  · intro huv
    cases hu : r.dfa.run u with
    | some s =>
      obtain ⟨s', hv⟩ := (h.exists_run_iff hn).mpr (huv ▸ (h.exists_run_iff hn).mp ⟨s, hu⟩)
      rw [hv, h.eq_of_getElem?_eq (h.getElem?_of_run hu) (huv ▸ h.getElem?_of_run hv)]
    | none => exact ((h.run_eq_none_iff hn).mpr (huv ▸ (h.run_eq_none_iff hn).mp hu)).symm

theorem exists_run_eq_some (hn : n.WellFormed) (h : Finished n r) (hs : s < r.dfa.size) : ∃ w, r.dfa.run w = some s := by
  have hlt : s < r.cores.size := Nat.lt_of_lt_of_eq hs h.size_eq.symm
  have hcore : r.cores[s]? = some r.cores[s] := Array.getElem?_eq_getElem hlt
  obtain ⟨hne, w, hw⟩ := h.traced (Array.mem_toList_iff.mpr (Array.getElem_mem hlt))
  obtain ⟨s', hrun⟩ := (h.exists_run_iff hn).mpr (hw ▸ hne)
  exact ⟨w, h.eq_of_getElem?_eq (h.getElem?_of_run hrun) (hw ▸ hcore) ▸ hrun⟩

end Finished

structure Mirrors (r : Subsets) (n : Nfa) : Prop where
  nodup : r.cores.toList.Nodup
  size_eq : r.cores.size = r.dfa.size
  defined_iff (w : List TermId) : (∃ s, r.dfa.run w = some s) ↔ (n.simulate w).isEmpty = false
  core (w : List TermId) (s : StateId) : r.dfa.run w = some s → r.cores[s]? = some (n.simulate w)
  isFinal (w : List TermId) (s : StateId) : r.dfa.run w = some s → r.dfa.isFinal s = n.anyFinal (n.simulate w)
  terms (w : List TermId) (s : StateId) :
    r.dfa.run w = some s → ∀ t, (∃ j, (t, j) ∈ r.dfa.edges s) ↔ t ∈ n.nextTerms (n.simulate w)
  accepts_eq (w : List TermId) : r.dfa.accepts w = n.accepts w
  run_eq_iff (u v : List TermId) : r.dfa.run u = r.dfa.run v ↔ n.simulate u = n.simulate v
  reached (s : StateId) : s < r.dfa.size → ∃ w, r.dfa.run w = some s

theorem mirrors_of_determinize (hn : n.WellFormed) (hr : n.determinize limit = .ok r) : r.Mirrors n :=
  have h := finished_determinize hn hr
  { nodup := h.nodup
    size_eq := h.size_eq
    defined_iff := fun _ => h.exists_run_iff hn
    core := fun _ _ => h.getElem?_of_run
    isFinal := fun _ _ => h.isFinal_of_run
    terms := fun _ _ hrun _ => h.exists_edge_iff hrun
    accepts_eq := h.accepts_eq hn
    run_eq_iff := fun _ _ => h.run_eq_iff hn
    reached := fun _ => h.exists_run_eq_some hn }

theorem exists_mirrors_of_built (h : n.Built) : ∃ r, n.determinize none = .ok r ∧ r.Mirrors n := by
  obtain ⟨r, hr⟩ := exists_determinize_none n
  exact ⟨r, hr, mirrors_of_determinize h.wellFormed hr⟩

def knot : Nfa := ((((Nfa.initial.addState.addEpsilon 0 2).addEpsilon 2 0).addEdge 2 5 1).addEdge 0 5 2).addEdge 1 3 1

theorem exists_mirrors_knot : knot.Built ∧ ∃ r, knot.determinize none = .ok r ∧ r.Mirrors knot := by
  have h : knot.Built := by
    refine .addEdge (.addEdge (.addEdge (.addEpsilon (.addEpsilon (.addState .initial) ?_ ?_) ?_ ?_) ?_ ?_) ?_ ?_) ?_ ?_
    all_goals decide
  exact ⟨h, exists_mirrors_of_built h⟩

end Subsets

end CallGrammar
