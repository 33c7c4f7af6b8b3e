namespace CallGrammar

structure StateSet where
  bits : Nat
  deriving DecidableEq, Repr

namespace StateSet

def empty : StateSet := ⟨0⟩

instance : Inhabited StateSet := ⟨empty⟩

def contains (s : StateSet) (i : Nat) : Bool := s.bits.testBit i

instance : Membership Nat StateSet := ⟨fun s i => s.contains i = true⟩

instance (i : Nat) (s : StateSet) : Decidable (i ∈ s) := inferInstanceAs (Decidable (s.contains i = true))

def insert (s : StateSet) (i : Nat) : StateSet := ⟨s.bits ||| 1 <<< i⟩

def ofList (is : List Nat) : StateSet := is.foldl insert empty

def toList (s : StateSet) : List Nat := (List.range (s.bits.log2 + 1)).filter s.contains

def isEmpty (s : StateSet) : Bool := s.bits = 0

theorem mem_iff {s : StateSet} {i : Nat} : i ∈ s ↔ s.contains i = true := Iff.rfl

theorem ext {s t : StateSet} (h : ∀ i, i ∈ s ↔ i ∈ t) : s = t := by
  obtain ⟨a⟩ := s
  obtain ⟨b⟩ := t
  congr 1
  exact Nat.eq_of_testBit_eq fun i => Bool.eq_iff_iff.mpr (h i)

theorem not_mem_empty (i : Nat) : i ∉ empty := by simp [mem_iff, contains, empty]

theorem mem_insert {s : StateSet} {i j : Nat} : j ∈ s.insert i ↔ j = i ∨ j ∈ s := by
  simp only [mem_iff, contains, insert, Nat.testBit_or, Nat.one_shiftLeft, Nat.testBit_two_pow, Bool.or_eq_true,
    decide_eq_true_eq]
  rw [or_comm, eq_comm]

theorem mem_foldl_insert {is : List Nat} {s : StateSet} {j : Nat} : j ∈ is.foldl insert s ↔ j ∈ is ∨ j ∈ s := by
  induction is generalizing s with
  | nil => simp
  | cons i is ih => rw [List.foldl_cons, ih, mem_insert, List.mem_cons, or_assoc, or_left_comm]

theorem mem_ofList {is : List Nat} {j : Nat} : j ∈ ofList is ↔ j ∈ is := by
  rw [ofList, mem_foldl_insert]
  simp [not_mem_empty]

theorem mem_toList {s : StateSet} {i : Nat} : i ∈ s.toList ↔ i ∈ s := by
  simp only [toList, List.mem_filter, List.mem_range, mem_iff, and_iff_right_iff_imp]
  intro h
  by_cases hi : i < s.bits.log2 + 1
  · exact hi
  · have hlt : s.bits < 2 ^ i :=
      Nat.lt_of_lt_of_le Nat.lt_log2_self (Nat.pow_le_pow_right (by decide) (by omega))
    simp [contains, Nat.testBit_lt_two_pow hlt] at h

theorem isEmpty_iff {s : StateSet} : s.isEmpty = true ↔ ∀ i, i ∉ s := by
  constructor
  · intro h i
    have hs : s = empty := by
      obtain ⟨bits⟩ := s
      simpa [isEmpty, empty] using h
    exact hs ▸ not_mem_empty i
  · intro h
    have hs : s = empty := ext fun i => by simp [h i, not_mem_empty]
    simp [hs, isEmpty, empty]

end StateSet

end CallGrammar
