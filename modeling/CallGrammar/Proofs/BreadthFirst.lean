import CallGrammar.Proofs.EraseDups
import CallGrammar.Proofs.Runs
import Mathlib.Order.Lattice.Nat

namespace CallGrammar

namespace Search

section queue

variable {next : Nat → List Nat} {seen : StateSet} {is queue frontier order : List Nat} {i j n rounds : Nat}

theorem mem_unseen : j ∈ unseen n seen ↔ j < n ∧ j ∉ seen := by simp [unseen]

theorem nodup_unseen (n : Nat) (seen : StateSet) : (unseen n seen).Nodup := List.nodup_range.filter _

theorem length_unseen_fresh (seen : StateSet) (h : ∀ j ∈ is, j < n) :
    (unseen n (fresh seen is).2).length + (fresh seen is).1.length = (unseen n seen).length := by
  have hparts : (unseen n (fresh seen is).2 ++ (fresh seen is).1).Perm (unseen n seen) := by
    refine (List.perm_ext_iff_of_nodup ?_ (nodup_unseen n seen)).mpr fun j => ?_
    · refine List.nodup_append.mpr ⟨nodup_unseen n _, nodup_fresh seen is, ?_⟩
      rintro j hj _ hj' rfl
      exact (mem_unseen.mp hj).2 (mem_fresh_snd.mpr (.inl (mem_fresh_fst.mp hj').1))
    · rw [List.mem_append, mem_unseen, mem_unseen, mem_fresh_snd, mem_fresh_fst]
      have := h j
      tauto
  rw [← List.length_append, hparts.length_eq]

def sweep? (next : Nat → List Nat) (n : Nat) (seen : StateSet) : List Nat → Option (List Nat)
  | [] => some []
  | i :: queue =>
      if i < n ∧ ∀ j ∈ next i, j < n then
        (sweep? next n (fresh seen (next i)).2 (queue ++ (fresh seen (next i)).1)).map (i :: ·)
      else none
termination_by queue => (unseen n seen).length + queue.length
decreasing_by
  rename_i h
  have := length_unseen_fresh seen h.2
  rw [List.length_append, List.length_cons]
  omega

theorem sweep?_nil (next : Nat → List Nat) (n : Nat) (seen : StateSet) : sweep? next n seen [] = some [] := by rw [sweep?]

theorem sweep?_cons (hi : i < n) (hnext : ∀ j ∈ next i, j < n) : sweep? next n seen (i :: queue) =
    (sweep? next n (fresh seen (next i)).2 (queue ++ (fresh seen (next i)).1)).map (i :: ·) := by
  rw [sweep?, if_pos ⟨hi, hnext⟩]

theorem sweep?_eq_some (h : sweep? next n seen queue = some order) :
    order = queue ++ (fresh seen (order.flatMap next)).1 := by
  fun_induction sweep? next n seen queue generalizing order with
  | case1 seen =>
    obtain rfl := Option.some.inj h
    rfl
  | case2 seen i queue _ ih =>
    obtain ⟨order, horder, rfl⟩ := Option.map_eq_some_iff.mp h
    have hrest := ih horder
    rw [List.flatMap_cons, fresh_append, List.cons_append, ← List.append_assoc, ← hrest]
  | case3 => cases h

theorem sweep?_append (hnext : ∀ i < n, ∀ j ∈ next i, j < n) (his : ∀ i ∈ is, i < n) (seen : StateSet)
    (queue : List Nat) : sweep? next n seen (is ++ queue) =
      (sweep? next n (fresh seen (is.flatMap next)).2 (queue ++ (fresh seen (is.flatMap next)).1)).map (is ++ ·) := by
  induction is generalizing seen queue with
  | nil => simp [fresh]
  | cons i is ih =>
    have hi := his i List.mem_cons_self
    rw [List.cons_append, sweep?_cons hi (hnext i hi), List.append_assoc,
      ih fun k hk => his k (List.mem_cons_of_mem i hk), List.flatMap_cons, fresh_append, List.append_assoc, Option.map_map]
    rfl

theorem sweep?_fresh (hnext : ∀ i < n, ∀ j ∈ next i, j < n) (hfrontier : ∀ i ∈ frontier, i < n)
    (hrounds : (unseen n seen).length ≤ rounds) : sweep? next n (fresh seen frontier).2 (fresh seen frontier).1 =
      some (levelsFrom next rounds seen frontier).flatten := by
  induction rounds generalizing seen frontier with
  | zero =>
    have hnil : (fresh seen frontier).1 = [] := by
      have := length_unseen_fresh seen hfrontier
      exact List.eq_nil_of_length_eq_zero (by omega)
    rw [hnil, sweep?_nil, levelsFrom, List.flatten_nil]
  | succ rounds ih =>
    by_cases hnil : (fresh seen frontier).1 = []
    · rw [hnil, sweep?_nil, levelsFrom_of_fresh_eq_nil hnil, List.flatten_nil]
    · have hlevel : ∀ i ∈ (fresh seen frontier).1, i < n := fun i hi => hfrontier i (mem_fresh_fst.mp hi).1
      have hfound : ∀ j ∈ (fresh seen frontier).1.flatMap next, j < n := by
        intro j hj
        obtain ⟨i, hi, hij⟩ := List.mem_flatMap.mp hj
        exact hnext i (hlevel i hi) j hij
      have hless := length_unseen_fresh_lt hfrontier hnil
      have htaken := sweep?_append hnext hlevel (fresh seen frontier).2 []
      rw [List.append_nil, List.nil_append, ih hfound (by omega)] at htaken
      rw [htaken, levelsFrom_of_fresh_ne_nil hnil, List.flatten_cons]
      rfl

def within (next : Nat → List Nat) (n i : Nat) : List Nat := (next i).filter (· < n)

theorem lt_of_mem_within (h : j ∈ within next n i) : j < n := by simpa using (List.mem_filter.mp h).2

theorem within_eq_self (h : ∀ j ∈ next i, j < n) : within next n i = next i :=
  List.filter_eq_self.mpr fun j hj => decide_eq_true (h j hj)

def stays (next : Nat → List Nat) (n : Nat) (is : List Nat) : Bool := is.all fun i => (next i).all (· < n)

theorem sweep?_eq_filter (hqueue : ∀ i ∈ queue, i < n) :
    sweep? next n seen queue = (sweep? (within next n) n seen queue).filter (stays next n) := by
  fun_induction sweep? next n seen queue with
  | case1 seen =>
    rw [sweep?_nil]
    rfl
  | case2 seen i queue h ih =>
    have hstays : (stays next n <| i :: ·) = stays next n := by
      funext order
      simpa [stays] using fun _ => h.2
    have hgrown : ∀ j ∈ queue ++ (fresh seen (next i)).1, j < n := by
      intro j hj
      rcases List.mem_append.mp hj with hj | hj
      · exact hqueue j (List.mem_cons_of_mem i hj)
      · exact h.2 j (mem_fresh_fst.mp hj).1
    rw [sweep?_cons h.1 fun j => lt_of_mem_within, within_eq_self h.2, ih hgrown, Option.filter_map]
    congr 2
    exact hstays.symm
  | case3 seen i queue h =>
    have hi := hqueue i List.mem_cons_self
    have hleaves : (next i).all (· < n) = false := by simpa [hi] using h
    rw [sweep?_cons hi fun j => lt_of_mem_within, eq_comm, Option.filter_eq_none_iff]
    intro order horder
    obtain ⟨order, _, rfl⟩ := Option.map_eq_some_iff.mp horder
    simp [stays, hleaves]

end queue

section walks

variable {next : Nat → List Nat} {seen : StateSet} {frontier : List Nat} {i j n m rounds : Nat}

inductive Walk (next : Nat → List Nat) : Nat → Nat → Nat → Prop
  | nil (i : Nat) : Walk next 0 i i
  | cons {n i j k : Nat} : j ∈ next i → Walk next n j k → Walk next (n + 1) i k

def Waits (next : Nat → List Nat) (seen : StateSet) (frontier : List Nat) : Prop :=
  ∀ i ∈ seen, ∀ j ∈ next i, j ∈ seen ∨ j ∈ frontier

theorem waits_empty (next : Nat → List Nat) (frontier : List Nat) : Waits next .empty frontier :=
  fun i hi => absurd hi (StateSet.not_mem_empty i)

theorem Waits.level (h : Waits next seen frontier) :
    Waits next (fresh seen frontier).2 ((fresh seen frontier).1.flatMap next) := by
  intro i hi j hij
  rcases mem_fresh_snd_cases hi with hi | hi
  · exact .inl (mem_fresh_snd.mpr (h i hi j hij).symm)
  · exact .inr (List.mem_flatMap.mpr ⟨i, hi, hij⟩)

theorem Walk.leaves (h : Walk next n i j) (hwaits : Waits next seen frontier) (hi : i ∈ seen) (hj : j ∉ seen) :
    ∃ m < n, ∃ k ∈ frontier, Walk next m k j := by
  induction h with
  | nil => exact absurd hi hj
  | @cons n i k j hstep hwalk ih =>
    rcases hwaits i hi k hstep with hk | hk
    · obtain ⟨m, hm, hrest⟩ := ih hk hj
      exact ⟨m, Nat.lt_succ_of_lt hm, hrest⟩
    · exact ⟨n, Nat.lt_succ_self n, k, hk, hwalk⟩

def NoFarther (next : Nat → List Nat) (frontier : List Nat) (i j : Nat) : Prop :=
  ∀ n, ∀ k ∈ frontier, Walk next n k j → ∃ m ≤ n, ∃ k ∈ frontier, Walk next m k i

theorem noFarther_of_mem (hi : i ∈ frontier) (j : Nat) : NoFarther next frontier i j :=
  fun n _ _ _ => ⟨0, Nat.zero_le n, i, hi, .nil i⟩

theorem pairwise_levelsFrom (hwaits : Waits next seen frontier) :
    (levelsFrom next rounds seen frontier).flatten.Pairwise (NoFarther next frontier) := by
  induction rounds generalizing seen frontier with
  | zero => exact .nil
  | succ rounds ih =>
    by_cases hnil : (fresh seen frontier).1 = []
    · rw [levelsFrom_of_fresh_eq_nil hnil]
      exact .nil
    · have hlevel : ∀ i ∈ (fresh seen frontier).1, ∀ j, NoFarther next frontier i j :=
        fun i hi j => noFarther_of_mem (mem_fresh_fst.mp hi).1 j
      rw [levelsFrom_of_fresh_ne_nil hnil, List.flatten_cons, List.pairwise_append]
      refine ⟨List.pairwise_of_forall_mem_list fun i hi j _ => hlevel i hi j, ?_, fun i hi j _ => hlevel i hi j⟩
      refine (ih hwaits.level).imp_of_mem fun {i j} _ hj hij n k hk hwalk => ?_
      have hk : k ∈ (fresh seen frontier).2 := mem_fresh_snd.mpr (.inl hk)
      obtain ⟨m, hm, l, hl, hrest⟩ := hwalk.leaves hwaits.level hk (notMem_of_mem_levelsFrom hj)
      obtain ⟨m', hm', l', hl', hnear⟩ := hij m l hl hrest
      obtain ⟨k', hk', hstep⟩ := List.mem_flatMap.mp hl'
      exact ⟨m' + 1, by omega, k', (mem_fresh_fst.mp hk').1, .cons hstep hnear⟩

end walks

section discovery

variable {next : Nat → List Nat} {seen : StateSet} {is : List Nat}

theorem fresh_eq_filter (seen : StateSet) (is : List Nat) : (fresh seen is).1 = is.eraseDups.filter (· ∉ seen) := by
  induction is generalizing seen with
  | nil => rfl
  | cons i is ih =>
    by_cases h : i ∈ seen
    · rw [fresh_cons_of_mem h, ih, eraseDups_cons, List.filter_cons_of_neg (by simpa using h),
        filter_filter_ne (by simpa using h)]
    · rw [fresh_cons_of_notMem h, ih, eraseDups_cons, List.filter_cons_of_pos (by simpa using h), List.filter_filter]
      refine congrArg (List.cons i) (List.filter_congr fun j _ => ?_)
      simp [StateSet.mem_insert, Bool.and_comm]

def discovered (next : Nat → List Nat) (seen : StateSet) (is : List Nat) (i : Nat) : List Nat :=
  (next i).eraseDups.filter fun j => j ∉ seen ∧ is.find? (j ∈ next ·) = some i

theorem fresh_flatMap (his : is.Nodup) : (fresh seen (is.flatMap next)).1 = is.flatMap (discovered next seen is) := by
  induction is generalizing seen with
  | nil => rfl
  | cons i is ih =>
    obtain ⟨hi, his⟩ := List.nodup_cons.mp his
    rw [List.flatMap_cons, List.flatMap_cons, fresh_append, ih his, fresh_eq_filter]
    refine congrArg₂ (· ++ ·) ?_ ?_
    · refine List.filter_congr fun j hj => ?_
      have hij : j ∈ next i := List.mem_eraseDups.mp hj
      simp [hij]
    · refine List.flatMap_congr fun k hk => ?_
      refine List.filter_congr fun j _ => ?_
      by_cases hij : j ∈ next i
      · have hik : i ≠ k := fun h => hi (h ▸ hk)
        simp [hij, hik, mem_fresh_snd]
      · simp [hij, mem_fresh_snd]

end discovery

end Search

namespace Dfa

variable {d : Dfa} {i j : StateId} {n : Nat} {w : List TermId} {order : List StateId}

def explore? (d : Dfa) : Option (List StateId) :=
  if d.size = 0 then some [] else Search.sweep? d.successors d.size (.ofList [start]) [start]

theorem fresh_start : Search.fresh .empty [start] = ([start], StateSet.ofList [start]) := rfl

theorem explore?_eq_reachable (d : Dfa) : d.explore? = d.reachable := by
  rw [explore?, reachable]
  split
  · rfl
  · rename_i hsize
    have hstart : ∀ i ∈ [start], i < d.size := by
      intro i hi
      rw [List.mem_singleton.mp hi]
      exact Nat.pos_of_ne_zero hsize
    have hrounds : (Search.unseen d.size .empty).length ≤ d.size :=
      Nat.le_trans (List.length_filter_le _ _) (Nat.le_of_eq List.length_range)
    have hwithin : ∀ i < d.size, ∀ j ∈ Search.within d.successors d.size i, j < d.size :=
      fun _ _ _ => Search.lt_of_mem_within
    have hlevels := Search.sweep?_fresh hwithin hstart hrounds
    rw [fresh_start] at hlevels
    rw [Search.sweep?_eq_filter hstart, hlevels]
    rfl

theorem walk_of_runFrom (h : d.runFrom i w = some j) : Search.Walk d.successors w.length i j := by
  induction w generalizing i with
  | nil =>
    obtain rfl := Option.some.inj h
    exact .nil i
  | cons t w ih =>
    obtain ⟨k, hstep, hrun⟩ := Option.bind_eq_some_iff.mp h
    exact .cons (mem_successors_iff.mpr ⟨t, step_eq_some_iff.mp hstep⟩) (ih hrun)

theorem exists_runFrom_of_walk (h : Search.Walk d.successors n i j) : ∃ w, d.runFrom i w = some j ∧ w.length = n := by
  induction h with
  | nil i => exact ⟨[], rfl, rfl⟩
  | cons hstep _ ih =>
    obtain ⟨t, ht⟩ := mem_successors_iff.mp hstep
    obtain ⟨w, hw, hlength⟩ := ih
    refine ⟨t :: w, ?_, congrArg Nat.succ hlength⟩
    rw [runFrom, step_eq_some_iff.mpr ht]
    exact hw

noncomputable def distance (d : Dfa) (i : StateId) : Nat := sInf { n | ∃ w, d.run w = some i ∧ w.length = n }

theorem distance_le (h : d.run w = some i) : d.distance i ≤ w.length := Nat.sInf_le ⟨w, h, rfl⟩

theorem exists_length_eq_distance (h : i ∈ d.reached) : ∃ w, d.run w = some i ∧ w.length = d.distance i := by
  obtain ⟨w, hw⟩ := h
  have hlengths : { n | ∃ w, d.run w = some i ∧ w.length = n }.Nonempty := ⟨w.length, w, hw, rfl⟩
  exact Nat.sInf_mem hlengths

theorem distance_le_of_noFarther (h : Search.NoFarther d.successors [start] i j) (hj : j ∈ d.reached) :
    d.distance i ≤ d.distance j := by
  obtain ⟨w, hw, hlength⟩ := exists_length_eq_distance hj
  obtain ⟨m, hm, k, hk, hwalk⟩ := h w.length start List.mem_cons_self (walk_of_runFrom hw)
  obtain ⟨v, hv, rfl⟩ := exists_runFrom_of_walk hwalk
  rw [List.mem_singleton.mp hk] at hv
  calc
    d.distance i ≤ v.length := distance_le hv
    _ ≤ w.length := hm
    _ = d.distance j := hlength

def children (d : Dfa) (order : List StateId) (i : StateId) : List StateId :=
  (d.successors i).eraseDups.filter fun j => j ≠ start ∧ order.find? (j ∈ d.successors ·) = some i

structure BreadthFirst (d : Dfa) (order : List StateId) : Prop where
  nodup : order.Nodup
  mem_iff {i : StateId} : i ∈ order ↔ i ∈ d.reached
  head : order.head? = some start
  nearer : order.Pairwise fun i j => d.distance i ≤ d.distance j
  siblings (i : StateId) : (d.children order i).Sublist order
  families : order = start :: order.flatMap (d.children order)

theorem discovered_eq_children (d : Dfa) (order : List StateId) :
    Search.discovered d.successors (.ofList [start]) order = d.children order := by
  funext i
  simp [Search.discovered, children, StateSet.mem_ofList]

theorem families_of_explore? (h : d.explore? = some order) (hsize : 0 < d.size) (hnodup : order.Nodup) :
    order = start :: order.flatMap (d.children order) := by
  rw [explore?, if_neg (Nat.ne_of_gt hsize)] at h
  have horder := Search.sweep?_eq_some h
  rwa [Search.fresh_flatMap hnodup, discovered_eq_children] at horder

theorem children_sublist (h : order = start :: order.flatMap (d.children order)) (i : StateId) :
    (d.children order i).Sublist order := by
  by_cases hi : i ∈ order
  · have hfamily : (d.children order i).Sublist (order.flatMap (d.children order)) :=
      List.sublist_flatten_of_mem (List.mem_map_of_mem hi)
    have hafter := hfamily.cons start
    rwa [← h] at hafter
  · have hnone : d.children order i = [] := by
      rw [children, List.filter_eq_nil_iff]
      intro j _ hj
      exact hi (List.mem_of_find?_eq_some (of_decide_eq_true hj).2)
    rw [hnone]
    exact List.nil_sublist order

theorem pairwise_distance (h : d.WellFormed) (hsize : 0 < d.size) :
    (Search.order d.successors d.size [start]).Pairwise fun i j => d.distance i ≤ d.distance j := by
  refine (Search.pairwise_levelsFrom (Search.waits_empty d.successors [start])).imp_of_mem fun _ hj hij => ?_
  exact distance_le_of_noFarther hij ((h.mem_order_iff hsize).mp hj)

theorem breadthFirst_of_explore? (h : d.WellFormed) (hsize : 0 < d.size) (horder : d.explore? = some order) :
    d.BreadthFirst order := by
  obtain rfl : Search.order d.successors d.size [start] = order := by
    rw [explore?_eq_reachable, h.reachable_eq hsize] at horder
    exact Option.some.inj horder
  have hnodup := Search.nodup_order d.successors d.size [start]
  have hfamilies := families_of_explore? horder hsize hnodup
  exact {
    nodup := hnodup
    mem_iff := h.mem_order_iff hsize
    head := by rw [hfamilies, List.head?_cons]
    nearer := pairwise_distance h hsize
    siblings := children_sublist hfamilies
    families := hfamilies }

theorem reachable_breadthFirst (h : d.WellFormed) : ∃ order, d.explore? = some order ∧ d.reachable = some order ∧
    (d.size = 0 → order = []) ∧ (0 < d.size → d.BreadthFirst order) := by
  rcases Nat.eq_zero_or_pos d.size with hzero | hpos
  · have hexplore : d.explore? = some [] := by rw [explore?, if_pos hzero]
    refine ⟨[], hexplore, ?_, fun _ => rfl, fun hpos => absurd hzero (Nat.ne_of_gt hpos)⟩
    rw [← explore?_eq_reachable, hexplore]
  · have hreachable := h.reachable_eq hpos
    have hexplore := (explore?_eq_reachable d).trans hreachable
    exact ⟨_, hexplore, hreachable, fun hzero => absurd hzero (Nat.ne_of_gt hpos), fun _ =>
      breadthFirst_of_explore? h hpos hexplore⟩

def tangled : Dfa :=
  ⟨#[.ofEdges false [(2, 3), (0, 1), (1, 3)], .ofEdges false [(0, 1), (1, 4), (2, 0)], .ofEdges true [(0, 5)],
    .ofEdges false [(1, 4), (0, 2)], .ofEdges true [], .ofEdges true [(2, 1), (0, 3)], .ofEdges false [(0, 0)]]⟩

theorem tangled_breadthFirst : tangled.WellFormed ∧ tangled.explore? = some [0, 3, 1, 4, 2, 5] ∧
    tangled.reachable = some [0, 3, 1, 4, 2, 5] ∧ tangled.BreadthFirst [0, 3, 1, 4, 2, 5] := by
  have h : tangled.WellFormed := by decide
  have hreachable : tangled.reachable = some [0, 3, 1, 4, 2, 5] := by decide
  obtain ⟨order, hexplore, horder, _, hbreadthFirst⟩ := reachable_breadthFirst h
  obtain rfl := Option.some.inj (horder.symm.trans hreachable)
  exact ⟨h, hexplore, hreachable, hbreadthFirst (by decide)⟩

end Dfa

end CallGrammar
