import CallGrammar.Search
import Mathlib.Logic.Relation

namespace CallGrammar.Search

abbrev Leads (next : Nat → List Nat) : Nat → Nat → Prop := Relation.ReflTransGen fun i j => j ∈ next i

variable {next : Nat → List Nat}

theorem levelsFrom_of_fresh_eq_nil {rounds : Nat} {seen : StateSet} {frontier : List Nat}
    (h : (fresh seen frontier).1 = []) : levelsFrom next (rounds + 1) seen frontier = [] := by
  obtain ⟨after, hfresh⟩ : ∃ after, fresh seen frontier = ([], after) := ⟨_, Prod.ext h rfl⟩
  simp only [levelsFrom, hfresh]

theorem levelsFrom_of_fresh_ne_nil {rounds : Nat} {seen : StateSet} {frontier : List Nat}
    (h : (fresh seen frontier).1 ≠ []) : levelsFrom next (rounds + 1) seen frontier = (fresh seen frontier).1 ::
      levelsFrom next rounds (fresh seen frontier).2 ((fresh seen frontier).1.flatMap next) := by
  rw [levelsFrom]
  split
  · rename_i hfresh
    exact absurd (by rw [hfresh]) h
  · rename_i hfresh
    rw [hfresh]

theorem leads_of_mem_levelsFrom {rounds : Nat} {seen : StateSet} {frontier : List Nat} {j : Nat}
    (hj : j ∈ (levelsFrom next rounds seen frontier).flatten) : ∃ i ∈ frontier, Leads next i j := by
  induction rounds generalizing seen frontier with
  | zero => simp [levelsFrom] at hj
  | succ rounds ih =>
    by_cases hnil : (fresh seen frontier).1 = []
    · simp [levelsFrom_of_fresh_eq_nil hnil] at hj
    · rw [levelsFrom_of_fresh_ne_nil hnil, List.flatten_cons, List.mem_append] at hj
      rcases hj with hj | hj
      · exact ⟨j, (mem_fresh_fst.mp hj).1, .refl⟩
      · obtain ⟨k, hk, hkj⟩ := ih hj
        obtain ⟨i, hi, hik⟩ := List.mem_flatMap.mp hk
        exact ⟨i, (mem_fresh_fst.mp hi).1, .head hik hkj⟩

def unseen (n : Nat) (seen : StateSet) : List Nat := (List.range n).filter (· ∉ seen)

theorem length_unseen_fresh_lt {n : Nat} {seen : StateSet} {frontier : List Nat} (hlt : ∀ i ∈ frontier, i < n)
    (hne : (fresh seen frontier).1 ≠ []) : (unseen n (fresh seen frontier).2).length < (unseen n seen).length := by
  obtain ⟨i, hi⟩ := List.exists_mem_of_ne_nil _ hne
  obtain ⟨hif, his⟩ := mem_fresh_fst.mp hi
  have hsub : unseen n (fresh seen frontier).2 = (unseen n seen).filter (· ∉ frontier) := by
    rw [unseen, unseen, List.filter_filter]
    apply List.filter_congr
    intro k _
    simp [mem_fresh_snd]
  rw [hsub]
  apply List.length_filter_lt_length_iff_exists.mpr
  exact ⟨i, by simp [unseen, hlt i hif, his], by simpa using hif⟩

theorem mem_fresh_snd_cases {seen : StateSet} {frontier : List Nat} {j : Nat} (h : j ∈ (fresh seen frontier).2) :
    j ∈ seen ∨ j ∈ (fresh seen frontier).1 := by
  by_cases hjs : j ∈ seen
  · exact .inl hjs
  · exact .inr (mem_fresh_fst.mpr ⟨(mem_fresh_snd.mp h).resolve_right hjs, hjs⟩)

theorem levelsFrom_closed {n rounds : Nat} {seen : StateSet} {frontier : List Nat}
    (hnext : ∀ i < n, ∀ j ∈ next i, j < n) (hlt : ∀ i ∈ frontier, i < n) (hrounds : (unseen n seen).length ≤ rounds) :
    (∀ i ∈ frontier, i ∈ seen ∨ i ∈ (levelsFrom next rounds seen frontier).flatten) ∧
    ∀ i ∈ (levelsFrom next rounds seen frontier).flatten, ∀ j ∈ next i,
      j ∈ seen ∨ j ∈ (levelsFrom next rounds seen frontier).flatten := by
  induction rounds generalizing seen frontier with
  | zero =>
    refine ⟨?_, by simp [levelsFrom]⟩
    intro i hi
    have hnil : unseen n seen = [] := List.eq_nil_of_length_eq_zero (by omega)
    have hall := List.filter_eq_nil_iff.mp hnil i (List.mem_range.mpr (hlt i hi))
    exact .inl (by simpa using hall)
  | succ rounds ih =>
    by_cases hnil : (fresh seen frontier).1 = []
    · rw [levelsFrom_of_fresh_eq_nil hnil]
      refine ⟨?_, by simp⟩
      intro i hi
      have his : i ∈ (fresh seen frontier).2 := mem_fresh_snd.mpr (.inl hi)
      simpa [hnil] using mem_fresh_snd_cases his
    · have hlevel : ∀ j ∈ (fresh seen frontier).1.flatMap next, j < n := by
        intro j hj
        obtain ⟨i, hi, hij⟩ := List.mem_flatMap.mp hj
        exact hnext i (hlt i (mem_fresh_fst.mp hi).1) j hij
      have hless := length_unseen_fresh_lt hlt hnil
      have hrest : (unseen n (fresh seen frontier).2).length ≤ rounds := by omega
      obtain ⟨hfrontier, hclosed⟩ := ih hlevel hrest
      rw [levelsFrom_of_fresh_ne_nil hnil, List.flatten_cons]
      refine ⟨?_, ?_⟩
      · intro i hi
        exact (mem_fresh_snd_cases (mem_fresh_snd.mpr (.inl hi))).imp_right (List.mem_append_left _)
      · intro i hi j hij
        have hfound := (List.mem_append.mp hi).elim (fun hi => hfrontier j (List.mem_flatMap.mpr ⟨i, hi, hij⟩))
          fun hi => hclosed i hi j hij
        rcases hfound with h | h
        · exact (mem_fresh_snd_cases h).imp_right (List.mem_append_left _)
        · exact .inr (List.mem_append_right _ h)

theorem mem_order_iff {n rounds : Nat} {start : List Nat} (hnext : ∀ i < n, ∀ j ∈ next i, j < n)
    (hstart : ∀ i ∈ start, i < n) (hrounds : n ≤ rounds) {j : Nat} :
    j ∈ order next rounds start ↔ ∃ i ∈ start, Leads next i j := by
  constructor
  · exact leads_of_mem_levelsFrom
  · rintro ⟨i, hi, hij⟩
    have hlen : (unseen n .empty).length ≤ rounds := by
      refine Nat.le_trans (List.length_filter_le _ _) ?_
      rwa [List.length_range]
    obtain ⟨hfrontier, hclosed⟩ := levelsFrom_closed hnext hstart hlen
    induction hij with
    | refl => exact (hfrontier i hi).resolve_left (StateSet.not_mem_empty i)
    | tail _ hjk ih => exact (hclosed _ ih _ hjk).resolve_left (StateSet.not_mem_empty _)

theorem fresh_cons_of_mem {seen : StateSet} {i : Nat} (h : i ∈ seen) (is : List Nat) :
    fresh seen (i :: is) = fresh seen is := by rw [fresh, if_pos h]

theorem fresh_cons_of_notMem {seen : StateSet} {i : Nat} (h : i ∉ seen) (is : List Nat) :
    fresh seen (i :: is) = (i :: (fresh (seen.insert i) is).1, (fresh (seen.insert i) is).2) := by rw [fresh, if_neg h]

theorem fresh_append (seen : StateSet) (is js : List Nat) : fresh seen (is ++ js) =
    ((fresh seen is).1 ++ (fresh (fresh seen is).2 js).1, (fresh (fresh seen is).2 js).2) := by
  induction is generalizing seen with
  | nil => simp [fresh]
  | cons i is ih =>
    by_cases h : i ∈ seen
    · rw [List.cons_append, fresh_cons_of_mem h, fresh_cons_of_mem h, ih]
    · rw [List.cons_append, fresh_cons_of_notMem h, fresh_cons_of_notMem h, ih, List.cons_append]

theorem nodup_fresh (seen : StateSet) (is : List Nat) : (fresh seen is).1.Nodup := by
  induction is generalizing seen with
  | nil => simp [fresh]
  | cons i is ih =>
    by_cases h : i ∈ seen
    · rw [fresh_cons_of_mem h]
      exact ih seen
    · rw [fresh_cons_of_notMem h, List.nodup_cons]
      refine ⟨fun hi => ?_, ih _⟩
      exact (mem_fresh_fst.mp hi).2 (StateSet.mem_insert.mpr (.inl rfl))

theorem notMem_of_mem_levelsFrom {rounds : Nat} {seen : StateSet} {frontier : List Nat} {j : Nat}
    (hj : j ∈ (levelsFrom next rounds seen frontier).flatten) : j ∉ seen := by
  induction rounds generalizing seen frontier with
  | zero => simp [levelsFrom] at hj
  | succ rounds ih =>
    by_cases hnil : (fresh seen frontier).1 = []
    · simp [levelsFrom_of_fresh_eq_nil hnil] at hj
    · rw [levelsFrom_of_fresh_ne_nil hnil, List.flatten_cons, List.mem_append] at hj
      rcases hj with hj | hj
      · exact (mem_fresh_fst.mp hj).2
      · exact fun hs => ih hj (mem_fresh_snd.mpr (.inr hs))

theorem nodup_levelsFrom (rounds : Nat) (seen : StateSet) (frontier : List Nat) :
    (levelsFrom next rounds seen frontier).flatten.Nodup := by
  induction rounds generalizing seen frontier with
  | zero => simp [levelsFrom]
  | succ rounds ih =>
    by_cases hnil : (fresh seen frontier).1 = []
    · simp [levelsFrom_of_fresh_eq_nil hnil]
    · rw [levelsFrom_of_fresh_ne_nil hnil, List.flatten_cons, List.nodup_append]
      refine ⟨nodup_fresh seen frontier, ih _ _, ?_⟩
      rintro i hi _ hi' rfl
      exact notMem_of_mem_levelsFrom hi' (mem_fresh_snd.mpr (.inl (mem_fresh_fst.mp hi).1))

theorem nodup_order (next : Nat → List Nat) (rounds : Nat) (start : List Nat) : (order next rounds start).Nodup :=
  nodup_levelsFrom rounds .empty start

end CallGrammar.Search
