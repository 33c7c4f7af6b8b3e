import CallGrammar.StateSet

namespace CallGrammar.Search

def fresh : StateSet → List Nat → List Nat × StateSet
  | seen, [] => ([], seen)
  | seen, i :: is =>
      if i ∈ seen then fresh seen is
      else
        let (found, seen) := fresh (seen.insert i) is
        (i :: found, seen)

theorem mem_fresh_snd {seen : StateSet} {is : List Nat} {j : Nat} :
    j ∈ (fresh seen is).2 ↔ j ∈ is ∨ j ∈ seen := by
  induction is generalizing seen with
  | nil => simp [fresh]
  | cons i is ih =>
    by_cases h : i ∈ seen
    · simp only [fresh, h, if_true, ih, List.mem_cons]
      constructor
      · rintro (hj | hj)
        · exact .inl (.inr hj)
        · exact .inr hj
      · rintro ((rfl | hj) | hj)
        · exact .inr h
        · exact .inl hj
        · exact .inr hj
    · simp only [fresh, h, if_false, ih, List.mem_cons, StateSet.mem_insert]
      rw [← or_assoc, or_comm (a := j ∈ is)]

theorem mem_fresh_fst {seen : StateSet} {is : List Nat} {j : Nat} :
    j ∈ (fresh seen is).1 ↔ j ∈ is ∧ j ∉ seen := by
  induction is generalizing seen with
  | nil => simp [fresh]
  | cons i is ih =>
    by_cases h : i ∈ seen
    · simp only [fresh, h, if_true, ih, List.mem_cons]
      constructor
      · rintro ⟨hj, hn⟩
        exact ⟨.inr hj, hn⟩
      · rintro ⟨rfl | hj, hn⟩
        · exact absurd h hn
        · exact ⟨hj, hn⟩
    · simp only [fresh, h, if_false, List.mem_cons, ih, StateSet.mem_insert]
      constructor
      · rintro (rfl | ⟨hj, hn⟩)
        · exact ⟨.inl rfl, h⟩
        · exact ⟨.inr hj, fun hs => hn (.inr hs)⟩
      · rintro ⟨rfl | hj, hn⟩
        · exact .inl rfl
        · by_cases hji : j = i
          · exact .inl hji
          · exact .inr ⟨hj, fun hs => hs.elim hji hn⟩

def levelsFrom (next : Nat → List Nat) : Nat → StateSet → List Nat → List (List Nat)
  | 0, _, _ => []
  | rounds + 1, seen, frontier =>
      match fresh seen frontier with
      | ([], _) => []
      | (level, seen) => level :: levelsFrom next rounds seen (level.flatMap next)

def levels (next : Nat → List Nat) (rounds : Nat) (start : List Nat) : List (List Nat) :=
  levelsFrom next rounds .empty start

def order (next : Nat → List Nat) (rounds : Nat) (start : List Nat) : List Nat := (levels next rounds start).flatten

end CallGrammar.Search
