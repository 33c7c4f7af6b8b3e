import CallGrammar.Dfa
import CallGrammar.Proofs.Search
import Mathlib.Data.List.Nodup
import Mathlib.Data.Set.Defs

namespace CallGrammar

namespace DfaState

variable {s : DfaState} {t : TermId} {j : StateId} {ts : List TermId}

def targets (s : DfaState) : List StateId := s.edges.map (·.2)

theorem next?_eq_some_iff : s.next? t = some j ↔ (t, j) ∈ s.edges := by
  rw [next?]
  constructor
  · intro h
    obtain ⟨⟨t', j'⟩, hfind, rfl⟩ := Option.map_eq_some_iff.mp h
    obtain rfl : t' = t := by simpa using List.find?_some hfind
    exact List.mem_of_find?_eq_some hfind
  · intro h
    have hsome : (s.edges.find? (·.1 = t)).isSome = true := List.find?_isSome.mpr ⟨(t, j), h, by simp⟩
    obtain ⟨⟨t', j'⟩, hfind⟩ := Option.isSome_iff_exists.mp hsome
    obtain rfl : t' = t := by simpa using List.find?_some hfind
    have hpair := List.inj_on_of_nodup_map s.nodup (List.mem_of_find?_eq_some hfind) h rfl
    rw [hfind, hpair]
    rfl

theorem next?_eq_none_iff : s.next? t = none ↔ t ∉ s.terms := by
  rw [next?, Option.map_eq_none_iff, List.find?_eq_none, terms, List.mem_map]
  constructor
  · rintro h ⟨e, he, rfl⟩
    exact h e he (by simp)
  · intro h e he het
    exact h ⟨e, he, by simpa using het⟩

theorem edges_insert_of_notMem (h : t ∉ s.terms) : (s.insert t j).edges = s.edges ++ [(t, j)] := by
  simp [insert, h]

theorem terms_insert_of_notMem (h : t ∉ s.terms) (j : StateId) : (s.insert t j).terms = s.terms ++ [t] := by
  rw [terms, edges_insert_of_notMem h, List.map_append]
  rfl

theorem targets_insert_of_notMem (h : t ∉ s.terms) (j : StateId) : (s.insert t j).targets = s.targets ++ [j] := by
  rw [targets, edges_insert_of_notMem h, List.map_append]
  rfl

theorem notMem_terms_insert (hts : (t :: ts).Nodup) (hnew : ∀ x ∈ t :: ts, x ∉ s.terms) (j : StateId) :
    ∀ x ∈ ts, x ∉ (s.insert t j).terms := by
  intro x hx hmem
  rw [terms_insert_of_notMem (hnew t List.mem_cons_self), List.mem_append, List.mem_singleton] at hmem
  rcases hmem with hmem | rfl
  · exact hnew x (List.mem_cons_of_mem t hx) hmem
  · exact (List.nodup_cons.mp hts).1 hx

theorem isFinal_insert (s : DfaState) (t : TermId) (j : StateId) : (s.insert t j).isFinal = s.isFinal := by
  rw [insert]
  split <;> rfl

end DfaState

namespace Dfa

variable {d : Dfa} {i j : StateId} {t : TermId} {u v w : List TermId}

theorem step_eq_some_iff : d.step i t = some j ↔ (t, j) ∈ d.edges i := by
  rw [step, edges]
  cases d.get? i with
  | none => exact iff_of_false (by simp) List.not_mem_nil
  | some s => exact DfaState.next?_eq_some_iff

theorem lt_size_of_mem_edges (h : (t, j) ∈ d.edges i) : i < d.size := by
  rw [edges] at h
  cases hstate : d.get? i with
  | none =>
    rw [hstate] at h
    exact absurd h List.not_mem_nil
  | some state => exact (Array.getElem?_eq_some_iff.mp hstate).1

theorem runFrom_append : d.runFrom i (u ++ v) = (d.runFrom i u).bind (d.runFrom · v) := by
  induction u generalizing i with
  | nil => rfl
  | cons t u ih =>
    rw [List.cons_append, runFrom, runFrom, Option.bind_assoc]
    congr 1
    funext j
    exact ih

theorem run_concat (hu : d.run u = some i) (h : (t, j) ∈ d.edges i) : d.run (u ++ [t]) = some j := by
  rw [run] at hu ⊢
  rw [runFrom_append, hu, Option.bind_some, runFrom, step_eq_some_iff.mpr h]
  rfl

theorem run_append_eq_some (h : d.run (u ++ v) = some j) : ∃ i, d.run u = some i ∧ d.runFrom i v = some j := by
  rw [run, runFrom_append] at h
  exact Option.bind_eq_some_iff.mp h

theorem exists_run_of_accepts (h : d.accepts u = true) : ∃ i, d.run u = some i ∧ d.isFinal i = true := by
  rw [accepts] at h
  cases hrun : d.run u with
  | none =>
    rw [hrun] at h
    cases h
  | some i =>
    rw [hrun] at h
    exact ⟨i, rfl, h⟩

structure WellFormed (d : Dfa) : Prop where
  edge_lt {i j : StateId} {t : TermId} : (t, j) ∈ d.edges i → j < d.size

theorem wellFormed_iff : d.WellFormed ↔ ∀ s ∈ d.states.toList, ∀ edge ∈ s.edges, edge.2 < d.size := by
  constructor
  · rintro h s hs ⟨t, j⟩ hedge
    obtain ⟨i, hi⟩ := List.mem_iff_getElem?.mp hs
    have hstate : d.get? i = some s := by rwa [get?, ← Array.getElem?_toList]
    refine h.edge_lt (i := i) (t := t) ?_
    rwa [edges, hstate]
  · intro h
    refine ⟨fun {i j t} hedge => ?_⟩
    have hi : i < d.states.size := lt_size_of_mem_edges hedge
    have hstate : d.get? i = some d.states[i] := Array.getElem?_eq_getElem hi
    rw [edges, hstate] at hedge
    exact h _ (Array.getElem_mem_toList hi) _ hedge

instance (d : Dfa) : Decidable d.WellFormed := decidable_of_iff _ wellFormed_iff.symm

def reached (d : Dfa) : Set StateId := { i | ∃ w, d.run w = some i }

theorem start_mem_reached (d : Dfa) : start ∈ d.reached := ⟨[], rfl⟩

theorem mem_reached_of_step (hi : i ∈ d.reached) (h : d.step i t = some j) : j ∈ d.reached := by
  obtain ⟨w, hw⟩ := hi
  exact ⟨w ++ [t], run_concat hw (step_eq_some_iff.mp h)⟩

theorem mem_successors_iff : j ∈ d.successors i ↔ ∃ t, (t, j) ∈ d.edges i := by simp [successors]

theorem leads_of_runFrom (h : d.runFrom i w = some j) : Search.Leads d.successors i j := by
  induction w generalizing i with
  | nil =>
    obtain rfl := Option.some.inj h
    exact .refl
  | cons t w ih =>
    obtain ⟨k, hstep, hrun⟩ := Option.bind_eq_some_iff.mp h
    exact .head (mem_successors_iff.mpr ⟨t, step_eq_some_iff.mp hstep⟩) (ih hrun)

theorem mem_reached_iff_leads : i ∈ d.reached ↔ Search.Leads d.successors start i := by
  constructor
  · rintro ⟨w, hw⟩
    exact leads_of_runFrom hw
  · intro h
    induction h with
    | refl => exact d.start_mem_reached
    | tail _ hedge ih =>
      obtain ⟨t, ht⟩ := mem_successors_iff.mp hedge
      exact mem_reached_of_step ih (step_eq_some_iff.mpr ht)

namespace WellFormed

theorem lt_size_of_runFrom (h : d.WellFormed) (hi : i < d.size) (hrun : d.runFrom i w = some j) : j < d.size := by
  induction w generalizing i with
  | nil =>
    obtain rfl := Option.some.inj hrun
    exact hi
  | cons t w ih =>
    obtain ⟨k, hstep, hrun⟩ := Option.bind_eq_some_iff.mp hrun
    exact ih (h.edge_lt (step_eq_some_iff.mp hstep)) hrun

theorem lt_size_of_mem_reached (h : d.WellFormed) (hsize : 0 < d.size) (hi : i ∈ d.reached) : i < d.size := by
  obtain ⟨w, hw⟩ := hi
  exact h.lt_size_of_runFrom hsize hw

theorem successors_lt (h : d.WellFormed) (hj : j ∈ d.successors i) : j < d.size := by
  obtain ⟨t, ht⟩ := mem_successors_iff.mp hj
  exact h.edge_lt ht

theorem reachable_eq (h : d.WellFormed) (hsize : 0 < d.size) :
    d.reachable = some (Search.order d.successors d.size [start]) := by
  have hinside : (fun i => (d.successors i).filter (· < d.size)) = d.successors := by
    funext i
    exact List.filter_eq_self.mpr fun j hj => decide_eq_true (h.successors_lt hj)
  rw [reachable, if_neg (Nat.ne_of_gt hsize), hinside, if_pos]
  exact List.all_eq_true.mpr fun i _ => List.all_eq_true.mpr fun j hj => decide_eq_true (h.successors_lt hj)

theorem mem_order_iff (h : d.WellFormed) (hsize : 0 < d.size) :
    i ∈ Search.order d.successors d.size [start] ↔ i ∈ d.reached := by
  have hstart : ∀ k ∈ [start], k < d.size := fun k hk => List.mem_singleton.mp hk ▸ hsize
  rw [Search.mem_order_iff (fun _ _ _ hj => h.successors_lt hj) hstart (Nat.le_refl d.size), mem_reached_iff_leads]
  simp

theorem exists_reachable (h : d.WellFormed) (hsize : 0 < d.size) :
    ∃ order, d.reachable = some order ∧ order.Nodup ∧ ∀ i, i ∈ order ↔ i ∈ d.reached :=
  ⟨_, h.reachable_eq hsize, Search.nodup_order _ _ _, fun _ => h.mem_order_iff hsize⟩

end WellFormed

end Dfa

end CallGrammar
