import Mathlib.Data.List.Nodup

namespace CallGrammar

variable {α β : Type} [DecidableEq α] [DecidableEq β] {xs : List α}

theorem filter_filter_ne {p : α → Bool} {x : α} (h : ¬ p x = true) (xs : List α) :
    (xs.filter (· ≠ x)).filter p = xs.filter p := by
  rw [List.filter_filter]
  refine List.filter_congr fun y _ => ?_
  by_cases hyx : y = x
  · simp [hyx, h]
  · simp [hyx]

theorem eraseDups_cons_filter (x : α) (xs : List α) : (x :: xs).eraseDups = x :: (xs.filter (· ≠ x)).eraseDups := by
  rw [List.eraseDups_cons]
  congr 2
  refine List.filter_congr fun y _ => ?_
  by_cases h : y = x <;> simp [h]

theorem filter_eraseDups (p : α → Bool) (xs : List α) : xs.eraseDups.filter p = (xs.filter p).eraseDups := by
  match xs with
  | [] => rfl
  | x :: xs =>
    have ih := filter_eraseDups p (xs.filter (· ≠ x))
    by_cases hx : p x = true
    · rw [eraseDups_cons_filter, List.filter_cons_of_pos hx, List.filter_cons_of_pos hx, eraseDups_cons_filter, ih,
        List.filter_comm]
    · rw [eraseDups_cons_filter, List.filter_cons_of_neg hx, List.filter_cons_of_neg hx, ih, filter_filter_ne hx]
termination_by xs.length
decreasing_by exact Nat.lt_succ_of_le (List.length_filter_le _ _)

theorem eraseDups_cons (x : α) (xs : List α) : (x :: xs).eraseDups = x :: xs.eraseDups.filter (· ≠ x) := by
  rw [eraseDups_cons_filter, filter_eraseDups]

theorem nodup_eraseDups (xs : List α) : xs.eraseDups.Nodup := by
  induction xs with
  | nil => exact .nil
  | cons x xs ih =>
    rw [eraseDups_cons]
    exact List.nodup_cons.mpr ⟨by simp, ih.filter _⟩

theorem eraseDups_eq_self (h : xs.Nodup) : xs.eraseDups = xs := by
  induction xs with
  | nil => rfl
  | cons x xs ih =>
    obtain ⟨hx, hxs⟩ := List.nodup_cons.mp h
    rw [eraseDups_cons, ih hxs, List.filter_eq_self.mpr]
    exact fun y hy => decide_eq_true fun hyx => hx (hyx ▸ hy)

theorem eraseDups_map_eraseDups (f : α → β) (xs : List α) : (xs.eraseDups.map f).eraseDups = (xs.map f).eraseDups := by
  induction xs with
  | nil => rfl
  | cons x xs ih =>
    have hapart : (xs.eraseDups.filter (· ≠ x)).filter (f · ≠ f x) = xs.eraseDups.filter (f · ≠ f x) :=
      filter_filter_ne (by simp) _
    have hmapped (ys : List α) : (ys.map f).eraseDups.filter (· ≠ f x) = ((ys.filter (f · ≠ f x)).map f).eraseDups := by
      rw [filter_eraseDups, List.filter_map]
      rfl
    calc
      ((x :: xs).eraseDups.map f).eraseDups =
          f x :: ((xs.eraseDups.filter (· ≠ x)).map f).eraseDups.filter (· ≠ f x) := by
        rw [eraseDups_cons, List.map_cons, eraseDups_cons]
      _ = f x :: (xs.eraseDups.map f).eraseDups.filter (· ≠ f x) := by rw [hmapped, hmapped, hapart]
      _ = ((x :: xs).map f).eraseDups := by rw [ih, List.map_cons, eraseDups_cons]

theorem eraseDups_map_of_inj_on {f : α → β} (h : ∀ x ∈ xs, ∀ y ∈ xs, f x = f y → x = y) :
    (xs.map f).eraseDups = xs.eraseDups.map f := by
  rw [← eraseDups_map_eraseDups]
  refine eraseDups_eq_self (List.Nodup.map_on (fun x hx y hy => ?_) (nodup_eraseDups xs))
  exact h x (List.mem_eraseDups.mp hx) y (List.mem_eraseDups.mp hy)

theorem pairwise_idxOf_eraseDups (xs : List α) : xs.eraseDups.Pairwise fun x y => xs.idxOf x < xs.idxOf y := by
  induction xs with
  | nil => exact .nil
  | cons x xs ih =>
    have hlater {y : α} (hy : y ≠ x) : (x :: xs).idxOf y = xs.idxOf y + 1 := List.idxOf_cons_ne xs (Ne.symm hy)
    have hne {y : α} (hy : y ∈ xs.eraseDups.filter (· ≠ x)) : y ≠ x := by simpa using (List.mem_filter.mp hy).2
    rw [eraseDups_cons, List.pairwise_cons]
    refine ⟨fun y hy => ?_, (ih.filter _).imp_of_mem fun hy hz hlt => ?_⟩
    · rw [List.idxOf_cons_self, hlater (hne hy)]
      exact Nat.succ_pos _
    · rw [hlater (hne hy), hlater (hne hz)]
      exact Nat.succ_lt_succ hlt

theorem map_idxOf_eq_range (h : xs.Nodup) : xs.map xs.idxOf = List.range xs.length := by
  refine List.ext_getElem (by simp) fun i hi _ => ?_
  rw [List.getElem_map, List.getElem_range, h.idxOf_getElem]

end CallGrammar
