import CallGrammar.Proofs.EraseDups
import CallGrammar.Term

namespace CallGrammar

theorem getElem?_of_idxOf?_eq_some {α : Type} [BEq α] [LawfulBEq α] {xs : Array α} {x : α} {i : Nat}
    (h : xs.idxOf? x = some i) : xs[i]? = some x := by
  rcases xs with ⟨l⟩
  rw [List.idxOf?_toArray] at h
  obtain ⟨hi, hx, _⟩ := List.idxOf?_eq_some_iff.mp h
  rw [List.getElem?_toArray, List.getElem?_eq_getElem hi, hx]

namespace TermTable

variable {t : TermTable} {x y : Term} {i j : TermId}

theorem intern_of_find?_eq_some (h : t.find? x = some i) : t.intern x = (t, i) := by
  rw [intern]
  split
  · rename_i hfound
    rw [h] at hfound
    rw [Option.some.inj hfound]
  · rename_i hnone
    rw [h] at hnone
    exact absurd hnone (by simp)

theorem intern_of_find?_eq_none (h : t.find? x = none) :
    (t.intern x).1.terms = t.terms.push x ∧ (t.intern x).2 = t.size := by
  rw [intern]
  split
  · rename_i hfound
    rw [h] at hfound
    exact absurd hfound (by simp)
  · exact ⟨rfl, rfl⟩

theorem get?_intern_self (t : TermTable) (x : Term) : (t.intern x).1.get? (t.intern x).2 = some x := by
  cases h : t.find? x with
  | some i =>
    rw [intern_of_find?_eq_some h]
    exact getElem?_of_idxOf?_eq_some h
  | none =>
    obtain ⟨hterms, hid⟩ := intern_of_find?_eq_none h
    rw [get?, hterms, hid, size]
    exact Array.getElem?_push_size

theorem get?_intern_of_get? (h : t.get? i = some y) (x : Term) : (t.intern x).1.get? i = some y := by
  cases hx : t.find? x with
  | some j =>
    rw [intern_of_find?_eq_some hx]
    exact h
  | none =>
    have hlt : i < t.terms.size := (Array.getElem?_eq_some_iff.mp h).1
    rw [get?, (intern_of_find?_eq_none hx).1, Array.getElem?_push_lt hlt, ← Array.getElem?_eq_getElem hlt]
    exact h

theorem get?_intern_cases (h : (t.intern x).1.get? i = some y) : t.get? i = some y ∨ i = (t.intern x).2 := by
  cases hx : t.find? x with
  | some j =>
    rw [intern_of_find?_eq_some hx] at h
    exact .inl h
  | none =>
    obtain ⟨hterms, hid⟩ := intern_of_find?_eq_none hx
    rw [get?, hterms, Array.getElem?_push] at h
    split at h
    · rename_i hi
      exact .inr (hi.trans hid.symm)
    · exact .inl h

theorem eq_of_get?_eq (hi : t.get? i = some x) (hj : t.get? j = some x) : i = j := by
  rw [get?_eq_getElem?] at hi hj
  have hlt := (List.getElem?_eq_some_iff.mp hi).1
  exact (List.getElem?_inj hlt t.nodup).mp (hi.trans hj.symm)

theorem find?_eq_some_iff : t.find? x = some i ↔ t.get? i = some x := by
  constructor
  · intro h
    exact getElem?_of_idxOf?_eq_some h
  · intro h
    cases hx : t.find? x with
    | some j => rw [eq_of_get?_eq (getElem?_of_idxOf?_eq_some hx) h]
    | none =>
      rw [get?_eq_getElem?] at h
      exact absurd (List.mem_of_getElem? h) (find?_eq_none_iff.mp hx)

theorem toList_intern (t : TermTable) (x : Term) :
    (t.intern x).1.toList = if x ∈ t.toList then t.toList else t.toList ++ [x] := by
  cases h : t.find? x with
  | some i =>
    have hget := find?_eq_some_iff.mp h
    rw [get?_eq_getElem?] at hget
    have hmem : x ∈ t.toList := List.mem_of_getElem? hget
    rw [intern_of_find?_eq_some h, if_pos hmem]
  | none =>
    rw [if_neg (find?_eq_none_iff.mp h), toList, (intern_of_find?_eq_none h).1, Array.toList_push]
    rfl

theorem mem_intern {y : Term} (h : y ∈ (t.intern x).1.toList) : y ∈ t.toList ∨ y = x := by
  rw [toList_intern] at h
  split at h
  · exact .inl h
  · simpa using h

def internAll (t : TermTable) (terms : List Term) : TermTable := terms.foldl (fun t x => (t.intern x).1) t

theorem internAll_append (t : TermTable) (xs ys : List Term) :
    t.internAll (xs ++ ys) = (t.internAll xs).internAll ys := List.foldl_append

theorem toList_internAll (t : TermTable) (xs : List Term) :
    (t.internAll xs).toList = t.toList ++ xs.eraseDups.filter (· ∉ t.toList) := by
  induction xs generalizing t with
  | nil => simp [internAll]
  | cons x xs ih =>
    have hcons : t.internAll (x :: xs) = (t.intern x).1.internAll xs := rfl
    rw [hcons, ih, toList_intern, eraseDups_cons]
    by_cases hx : x ∈ t.toList
    · rw [if_pos hx, List.filter_cons_of_neg (by simpa using hx), List.filter_filter]
      congr 1
      refine List.filter_congr fun y _ => ?_
      by_cases hyx : y = x
      · simp [hyx, hx]
      · simp [hyx]
    · rw [if_neg hx, List.filter_cons_of_pos (by simpa using hx), List.filter_filter, List.append_assoc,
        List.singleton_append]
      congr 2
      refine List.filter_congr fun y _ => ?_
      simp [not_or, Bool.and_comm]

theorem toList_internAll_empty (xs : List Term) : (empty.internAll xs).toList = xs.eraseDups := by
  rw [toList_internAll]
  simp [empty, toList]

end TermTable

end CallGrammar
