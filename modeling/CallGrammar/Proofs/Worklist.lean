import CallGrammar.Proofs.Subsets

namespace CallGrammar

namespace Search

theorem length_unseen_insert_lt {n i : Nat} {seen : StateSet} (hi : i < n) (hs : i ∉ seen) :
    (unseen n (seen.insert i)).length < (unseen n seen).length := by
  have hfresh : fresh seen [i] = ([i], seen.insert i) := fresh_cons_of_notMem hs []
  have hless : (fresh seen [i]).1 ≠ [] → (unseen n (fresh seen [i]).2).length < (unseen n seen).length :=
    length_unseen_fresh_lt (by simpa using hi)
  rw [hfresh] at hless
  exact hless (by simp)

end Search

namespace Nfa

open Search (Leads unseen)

def awaited (n : Nfa) (seen : StateSet) (i : StateId) (left : List StateId) : List StateId :=
  ((n.epsilons i).filter (· ∉ seen)).reverse ++ left

def visit (n : Nfa) (seen : StateSet) : List StateId → Option StateSet
  | [] => some seen
  | i :: left =>
      if i ∈ seen then n.visit seen left
      else if i < n.size then n.visit (seen.insert i) (n.awaited (seen.insert i) i left)
      else none
termination_by left => ((unseen n.size seen).length, left.length)
decreasing_by
  · exact Prod.Lex.right _ (Nat.lt_succ_self _)
  · rename_i hs hi
    exact Prod.Lex.left _ _ (Search.length_unseen_insert_lt hi hs)

def closure? (n : Nfa) (seed : List StateId) : Option StateSet := n.visit .empty seed.reverse

variable {n : Nfa} {seen s : StateSet} {left seed : List StateId} {i j : StateId}

theorem visit_nil (n : Nfa) (seen : StateSet) : n.visit seen [] = some seen := by rw [visit]

theorem visit_cons_of_mem (h : i ∈ seen) : n.visit seen (i :: left) = n.visit seen left := by rw [visit, if_pos h]

theorem visit_cons_of_notMem (h : i ∉ seen) (hi : i < n.size) :
    n.visit seen (i :: left) = n.visit (seen.insert i) (n.awaited (seen.insert i) i left) := by
  rw [visit, if_neg h, if_pos hi]

theorem mem_awaited_iff : j ∈ n.awaited seen i left ↔ j ∈ n.epsilons i ∧ j ∉ seen ∨ j ∈ left := by simp [awaited]

def Waits (n : Nfa) (seen : StateSet) (left : List StateId) : Prop :=
  ∀ i ∈ seen, ∀ j ∈ n.epsilons i, j ∈ seen ∨ j ∈ left

theorem waits_empty (n : Nfa) (left : List StateId) : n.Waits .empty left :=
  fun i hi => absurd hi (StateSet.not_mem_empty i)

theorem Waits.skip (h : n.Waits seen (i :: left)) (hi : i ∈ seen) : n.Waits seen left := by
  intro k hk j hj
  rcases h k hk j hj with hs | hl
  · exact .inl hs
  · rcases List.mem_cons.mp hl with rfl | hl
    · exact .inl hi
    · exact .inr hl

theorem Waits.take (h : n.Waits seen (i :: left)) : n.Waits (seen.insert i) (n.awaited (seen.insert i) i left) := by
  intro k hk j hj
  by_cases hseen : j ∈ seen.insert i
  · exact .inl hseen
  · refine .inr (mem_awaited_iff.mpr ?_)
    rcases StateSet.mem_insert.mp hk with rfl | hk
    · exact .inl ⟨hj, hseen⟩
    · rcases h k hk j hj with hs | hl
      · exact absurd (StateSet.mem_insert.mpr (.inr hs)) hseen
      · rcases List.mem_cons.mp hl with rfl | hl
        · exact absurd (StateSet.mem_insert.mpr (.inl rfl)) hseen
        · exact .inr hl

structure Finds (n : Nfa) (seen : StateSet) (left : List StateId) (s : StateSet) : Prop where
  keeps {i : StateId} : i ∈ seen → i ∈ s
  visits {i : StateId} : i ∈ left → i ∈ s
  follows {i j : StateId} : i ∈ s → j ∈ n.epsilons i → j ∈ s
  leads {j : StateId} : j ∈ s → j ∈ seen ∨ ∃ i ∈ left, Leads n.epsilons i j

theorem Finds.skip (h : n.Finds seen left s) (hi : i ∈ seen) : n.Finds seen (i :: left) s where
  keeps := h.keeps
  visits hk := (List.mem_cons.mp hk).elim (fun hki => hki ▸ h.keeps hi) h.visits
  follows := h.follows
  leads hj := (h.leads hj).imp_right fun ⟨k, hk, hkj⟩ => ⟨k, List.mem_cons_of_mem _ hk, hkj⟩

theorem Finds.take (h : n.Finds (seen.insert i) (n.awaited (seen.insert i) i left) s) : n.Finds seen (i :: left) s where
  keeps hk := h.keeps (StateSet.mem_insert.mpr (.inr hk))
  visits hk := by
    rcases List.mem_cons.mp hk with rfl | hk
    · exact h.keeps (StateSet.mem_insert.mpr (.inl rfl))
    · exact h.visits (mem_awaited_iff.mpr (.inr hk))
  follows := h.follows
  leads hj := by
    rcases h.leads hj with hj | ⟨k, hk, hkj⟩
    · rcases StateSet.mem_insert.mp hj with rfl | hj
      · exact .inr ⟨_, List.mem_cons_self, .refl⟩
      · exact .inl hj
    · rcases mem_awaited_iff.mp hk with ⟨hstep, _⟩ | hk
      · exact .inr ⟨i, List.mem_cons_self, .head hstep hkj⟩
      · exact .inr ⟨k, List.mem_cons_of_mem _ hk, hkj⟩

theorem exists_finds_visit {n : Nfa} {seen : StateSet} {left : List StateId} (hn : n.WellFormed)
    (hwaits : n.Waits seen left) (hleft : ∀ i ∈ left, i < n.size) : ∃ s, n.visit seen left = some s ∧ n.Finds seen left s := by
  match left with
  | [] => exact ⟨seen, visit_nil n seen, id, by simp, fun hi hj => by simpa using hwaits _ hi _ hj, .inl⟩
  | i :: left =>
    have hi := hleft i List.mem_cons_self
    have hrest : ∀ k ∈ left, k < n.size := fun k hk => hleft k (List.mem_cons_of_mem _ hk)
    by_cases hs : i ∈ seen
    · obtain ⟨s, hvisit, hfinds⟩ := exists_finds_visit hn (hwaits.skip hs) hrest
      exact ⟨s, by rw [visit_cons_of_mem hs, hvisit], hfinds.skip hs⟩
    · have hgrown : ∀ k ∈ n.awaited (seen.insert i) i left, k < n.size := by
        intro k hk
        rcases mem_awaited_iff.mp hk with ⟨hstep, _⟩ | hk
        · exact hn.epsilon_lt hstep
        · exact hrest k hk
      obtain ⟨s, hvisit, hfinds⟩ := exists_finds_visit hn hwaits.take hgrown
      exact ⟨s, by rw [visit_cons_of_notMem hs hi, hvisit], hfinds.take⟩
termination_by ((unseen n.size seen).length, left.length)
decreasing_by
  · exact Prod.Lex.right _ (Nat.lt_succ_self _)
  · exact Prod.Lex.left _ _ (Search.length_unseen_insert_lt hi hs)

theorem Finds.mem_iff (h : n.Finds .empty left s) : j ∈ s ↔ ∃ i ∈ left, Leads n.epsilons i j := by
  constructor
  · intro hj
    exact (h.leads hj).resolve_left (StateSet.not_mem_empty j)
  · rintro ⟨i, hi, hij⟩
    induction hij with
    | refl => exact h.visits hi
    | tail _ hjk ih => exact h.follows ih hjk

section closure

variable {seed' : List StateId}

theorem mem_closure_iff_leads (hn : n.WellFormed) (hseed : ∀ i ∈ seed, i < n.size) :
    j ∈ n.closure seed ↔ ∃ i ∈ seed, Leads n.epsilons i j := by
  simp only [mem_closure_iff hn hseed, leads_iff_path_nil]

theorem closure?_eq_some_closure (hn : n.WellFormed) (hseed : ∀ i ∈ seed, i < n.size) :
    n.closure? seed = some (n.closure seed) := by
  obtain ⟨s, hvisit, hfinds⟩ := exists_finds_visit hn (waits_empty n seed.reverse) (by simpa using hseed)
  rw [closure?, hvisit]
  congr 1
  apply StateSet.ext
  intro j
  rw [hfinds.mem_iff, mem_closure_iff_leads hn hseed]
  simp only [List.mem_reverse]

theorem closure_subset (hn : n.WellFormed) (hseed' : ∀ i ∈ seed', i < n.size) (hsub : ∀ i ∈ seed, i ∈ seed')
    (hj : j ∈ n.closure seed) : j ∈ n.closure seed' := by
  have hseed : ∀ i ∈ seed, i < n.size := fun i hi => hseed' i (hsub i hi)
  obtain ⟨i, hi, hij⟩ := (mem_closure_iff_leads hn hseed).mp hj
  exact (mem_closure_iff_leads hn hseed').mpr ⟨i, hsub i hi, hij⟩

theorem closure_congr (hn : n.WellFormed) (hseed : ∀ i ∈ seed, i < n.size) (h : ∀ i, i ∈ seed ↔ i ∈ seed') :
    n.closure seed = n.closure seed' := by
  have hseed' : ∀ i ∈ seed', i < n.size := fun i hi => hseed i ((h i).mpr hi)
  apply StateSet.ext
  intro j
  exact ⟨closure_subset hn hseed' fun i => (h i).mp, closure_subset hn hseed fun i => (h i).mpr⟩

theorem lt_size_of_mem_closure (hn : n.WellFormed) (hseed : ∀ i ∈ seed, i < n.size) (hj : j ∈ n.closure seed) :
    j < n.size := by
  obtain ⟨i, hi, hij⟩ := (mem_closure_iff hn hseed).mp hj
  exact hn.path_lt (hseed i hi) hij

theorem closure_toList_closure (hn : n.WellFormed) (hseed : ∀ i ∈ seed, i < n.size) :
    n.closure (n.closure seed).toList = n.closure seed := by
  have hlt : ∀ i ∈ (n.closure seed).toList, i < n.size := fun i hi =>
    lt_size_of_mem_closure hn hseed (StateSet.mem_toList.mp hi)
  apply StateSet.ext
  intro j
  constructor
  · intro hj
    obtain ⟨i, hi, hij⟩ := (mem_closure_iff hn hlt).mp hj
    exact closed_closure hn hseed i (StateSet.mem_toList.mp hi) j hij
  · intro hj
    exact (mem_closure_iff hn hlt).mpr ⟨j, StateSet.mem_toList.mpr hj, .nil j⟩

end closure

section simulation

def simulateFrom? (n : Nfa) : StateSet → List TermId → Option StateSet
  | s, [] => some s
  | s, t :: ts => if s.isEmpty then some s else (n.closure? (n.targets s t)).bind (n.simulateFrom? · ts)

def simulate? (n : Nfa) (trace : List TermId) : Option StateSet := (n.closure? [start]).bind (n.simulateFrom? · trace)

variable {t : TermId} {w : List TermId}

theorem lt_size_of_mem_targets (hn : n.WellFormed) (hi : i ∈ n.targets s t) : i < n.size := by
  obtain ⟨k, _, he⟩ := mem_targets.mp hi
  exact hn.edge_lt he

theorem closure?_targets (hn : n.WellFormed) (s : StateSet) (t : TermId) :
    n.closure? (n.targets s t) = some (n.advance s t) :=
  closure?_eq_some_closure hn fun _ => lt_size_of_mem_targets hn

theorem closure?_start (hn : n.WellFormed) : n.closure? [start] = some (n.closure [start]) :=
  closure?_eq_some_closure hn (by simpa using hn.start_lt)

theorem simulateFrom?_eq_some (hn : n.WellFormed) (s : StateSet) (w : List TermId) :
    n.simulateFrom? s w = some (n.simulateFrom s w) := by
  induction w generalizing s with
  | nil => rfl
  | cons t ts ih =>
    rw [simulateFrom?, simulateFrom]
    split
    · rfl
    · rw [closure?_targets hn, Option.bind_some, ih]

theorem simulate?_eq_some (hn : n.WellFormed) (w : List TermId) : n.simulate? w = some (n.simulate w) := by
  rw [simulate?, closure?_start hn, Option.bind_some, simulateFrom?_eq_some hn, simulate]

theorem advance_of_isEmpty (h : s.isEmpty = true) (t : TermId) : n.advance s t = .empty := by
  have htargets : n.targets s t = [] := by
    refine List.eq_nil_iff_forall_not_mem.mpr fun j hj => ?_
    obtain ⟨i, hi, _⟩ := mem_targets.mp hj
    exact StateSet.isEmpty_iff.mp h i hi
  rw [advance, htargets]
  rfl

theorem foldl_advance_empty (n : Nfa) (w : List TermId) : w.foldl n.advance .empty = .empty := by
  induction w with
  | nil => rfl
  | cons t ts ih => rw [List.foldl_cons, advance_of_isEmpty rfl, ih]

theorem eq_empty_of_isEmpty (h : s.isEmpty = true) : s = .empty :=
  StateSet.ext fun i => iff_of_false (StateSet.isEmpty_iff.mp h i) (StateSet.not_mem_empty i)

theorem simulateFrom_eq_foldl (n : Nfa) (s : StateSet) (w : List TermId) : n.simulateFrom s w = w.foldl n.advance s := by
  induction w generalizing s with
  | nil => rfl
  | cons t ts ih =>
    rw [simulateFrom, List.foldl_cons]
    split
    · rename_i hempty
      rw [eq_empty_of_isEmpty hempty, advance_of_isEmpty rfl, foldl_advance_empty]
    · exact ih (n.advance s t)

end simulation

structure FollowsPaths (n : Nfa) : Prop where
  ends {seed : List StateId} : (∀ i ∈ seed, i < n.size) → n.closure? seed = some (n.closure seed)
  leads {seed : List StateId} {j : StateId} :
    (∀ i ∈ seed, i < n.size) → (j ∈ n.closure seed ↔ ∃ i ∈ seed, Leads n.epsilons i j)
  unordered {seed seed' : List StateId} :
    (∀ i ∈ seed, i < n.size) → (∀ i, i ∈ seed ↔ i ∈ seed') → n.closure? seed = n.closure? seed'
  idempotent {seed : List StateId} {s : StateSet} :
    (∀ i ∈ seed, i < n.size) → n.closure? seed = some s → n.closure? s.toList = some s
  monotone {seed seed' : List StateId} : (∀ i ∈ seed', i < n.size) → (∀ i ∈ seed, i ∈ seed') →
    ∃ s s', n.closure? seed = some s ∧ n.closure? seed' = some s' ∧ ∀ j ∈ s, j ∈ s'
  simulates (w : List TermId) : n.simulate? w = some (n.simulate w)
  spells {w : List TermId} {j : StateId} : j ∈ n.simulate w ↔ n.Path start w j
  accepts_iff {w : List TermId} : n.accepts w = true ↔ ∃ j, n.Path start w j ∧ n.isFinal j = true
  unbroken (w : List TermId) : n.simulate w = w.foldl n.advance (n.closure [start])

theorem WellFormed.followsPaths (hn : n.WellFormed) : n.FollowsPaths where
  ends := closure?_eq_some_closure hn
  leads := mem_closure_iff_leads hn
  unordered hseed h := by
    rw [closure?_eq_some_closure hn hseed, closure?_eq_some_closure hn fun i hi => hseed i ((h i).mpr hi),
      closure_congr hn hseed h]
  idempotent {seed s} hseed hs := by
    rw [closure?_eq_some_closure hn hseed, Option.some_inj] at hs
    subst hs
    rw [closure?_eq_some_closure hn, closure_toList_closure hn hseed]
    exact fun i hi => lt_size_of_mem_closure hn hseed (StateSet.mem_toList.mp hi)
  monotone {seed seed'} hseed' hsub :=
    ⟨n.closure seed, n.closure seed', closure?_eq_some_closure hn fun i hi => hseed' i (hsub i hi),
      closure?_eq_some_closure hn hseed', fun _ => closure_subset hn hseed' hsub⟩
  simulates := simulate?_eq_some hn
  spells := mem_simulate_iff hn
  accepts_iff {w} := by
    rw [accepts, anyFinal_iff]
    simp only [mem_simulate_iff hn]
  unbroken w := simulateFrom_eq_foldl n (n.closure [start]) w

theorem followsPaths_of_built (h : n.Built) : n.FollowsPaths := h.wellFormed.followsPaths

theorem followsPaths_knot : Subsets.knot.Built ∧ Subsets.knot.FollowsPaths := by
  have h : Subsets.knot.Built := by
    refine .addEdge (.addEdge (.addEdge (.addEpsilon (.addEpsilon (.addState .initial) ?_ ?_) ?_ ?_) ?_ ?_) ?_ ?_) ?_ ?_
    all_goals decide
  exact ⟨h, followsPaths_of_built h⟩

end Nfa

end CallGrammar
