import CallGrammar.Proofs.Derivation
import CallGrammar.Proofs.Numbering

namespace CallGrammar.Expr

mutual

def number (table : TermTable) : Expr Mention → TermTable × Expr Occurrence
  | .term m => ((table.intern m.term).1, .term ⟨(table.intern m.term).2, m.term, m.span⟩)
  | .seq items => ((numberAll table items).1, .seq (numberAll table items).2)
  | .alt branches => ((numberAll table branches).1, .alt (numberAll table branches).2)
  | .star inner => ((number table inner).1, .star (number table inner).2)
  | .plus inner => ((number table inner).1, .plus (number table inner).2)
  | .optional inner => ((number table inner).1, .optional (number table inner).2)

def numberAll (table : TermTable) : List (Expr Mention) → TermTable × List (Expr Occurrence)
  | [] => (table, [])
  | e :: es => ((numberAll (number table e).1 es).1, (number table e).2 :: (numberAll (number table e).1 es).2)

end

mutual

theorem map_mention_number (table : TermTable) (e : Expr Mention) : (number table e).2.map Occurrence.mention = e := by
  cases e with
  | term m => rfl
  | seq items => rw [number, map, mapAll_mention_numberAll]
  | alt branches => rw [number, map, mapAll_mention_numberAll]
  | star inner => rw [number, map, map_mention_number]
  | plus inner => rw [number, map, map_mention_number]
  | optional inner => rw [number, map, map_mention_number]

theorem mapAll_mention_numberAll (table : TermTable) (es : List (Expr Mention)) :
    mapAll Occurrence.mention (numberAll table es).2 = es := by
  cases es with
  | nil => rfl
  | cons e es => rw [numberAll, mapAll, map_mention_number, mapAll_mention_numberAll]

end

mutual

theorem get?_number {table : TermTable} {i : TermId} {x : Term} (h : table.get? i = some x) (e : Expr Mention) :
    (number table e).1.get? i = some x := by
  cases e with
  | term m => exact TermTable.get?_intern_of_get? h m.term
  | seq items => exact get?_numberAll h items
  | alt branches => exact get?_numberAll h branches
  | star inner => exact get?_number h inner
  | plus inner => exact get?_number h inner
  | optional inner => exact get?_number h inner

theorem get?_numberAll {table : TermTable} {i : TermId} {x : Term} (h : table.get? i = some x)
    (es : List (Expr Mention)) : (numberAll table es).1.get? i = some x := by
  cases es with
  | nil => exact h
  | cons e es => exact get?_numberAll (get?_number h e) es

end

mutual

theorem get?_of_mem_leaves_number (table : TermTable) (e : Expr Mention) {o : Occurrence}
    (ho : o ∈ (number table e).2.leaves) : (number table e).1.get? o.id = some o.term := by
  cases e with
  | term m =>
    obtain rfl := List.mem_singleton.mp ho
    exact TermTable.get?_intern_self table m.term
  | seq items => exact get?_of_mem_leavesAll_numberAll table items ho
  | alt branches => exact get?_of_mem_leavesAll_numberAll table branches ho
  | star inner => exact get?_of_mem_leaves_number table inner ho
  | plus inner => exact get?_of_mem_leaves_number table inner ho
  | optional inner => exact get?_of_mem_leaves_number table inner ho

theorem get?_of_mem_leavesAll_numberAll (table : TermTable) (es : List (Expr Mention)) {o : Occurrence}
    (ho : o ∈ leavesAll (numberAll table es).2) : (numberAll table es).1.get? o.id = some o.term := by
  cases es with
  | nil => exact absurd ho (by simp [numberAll, leavesAll])
  | cons e es =>
    rw [numberAll, leavesAll, List.mem_append] at ho
    rcases ho with ho | ho
    · exact get?_numberAll (get?_of_mem_leaves_number table e ho) es
    · exact get?_of_mem_leavesAll_numberAll (number table e).1 es ho

end

mutual

theorem get?_number_cases {table : TermTable} {i : TermId} {x : Term} (e : Expr Mention)
    (h : (number table e).1.get? i = some x) : table.get? i = some x ∨ ∃ o ∈ (number table e).2.leaves, o.id = i := by
  cases e with
  | term m =>
    refine (TermTable.get?_intern_cases h).imp_right fun hi => ?_
    exact ⟨_, List.mem_singleton_self _, hi.symm⟩
  | seq items => exact get?_numberAll_cases items h
  | alt branches => exact get?_numberAll_cases branches h
  | star inner => exact get?_number_cases inner h
  | plus inner => exact get?_number_cases inner h
  | optional inner => exact get?_number_cases inner h

theorem get?_numberAll_cases {table : TermTable} {i : TermId} {x : Term} (es : List (Expr Mention))
    (h : (numberAll table es).1.get? i = some x) :
    table.get? i = some x ∨ ∃ o ∈ leavesAll (numberAll table es).2, o.id = i := by
  cases es with
  | nil => exact .inl h
  | cons e es =>
    rw [numberAll, leavesAll]
    rcases get?_numberAll_cases es h with h | ⟨o, ho, hi⟩
    · refine (get?_number_cases e h).imp_right ?_
      rintro ⟨o, ho, hi⟩
      exact ⟨o, List.mem_append_left _ ho, hi⟩
    · exact .inr ⟨o, List.mem_append_right _ ho, hi⟩

end

mutual

theorem terms_number (table : TermTable) (e : Expr Mention) :
    (number table e).1 = table.internAll (e.leaves.map (·.term)) := by
  cases e with
  | term m => rfl
  | seq items => exact terms_numberAll table items
  | alt branches => exact terms_numberAll table branches
  | star inner => exact terms_number table inner
  | plus inner => exact terms_number table inner
  | optional inner => exact terms_number table inner

theorem terms_numberAll (table : TermTable) (es : List (Expr Mention)) :
    (numberAll table es).1 = table.internAll ((leavesAll es).map (·.term)) := by
  cases es with
  | nil => rfl
  | cons e es =>
    rw [numberAll, leavesAll, List.map_append, TermTable.internAll_append, terms_numberAll (number table e).1 es,
      terms_number table e]

end

theorem map_term_number (table : TermTable) (e : Expr Mention) :
    (number table e).2.map (·.term) = e.map (·.term) := by
  have hmentions := congrArg (map (·.term)) (map_mention_number table e)
  rwa [map_map] at hmentions

theorem map_id_number (table : TermTable) (e : Expr Mention) : (number table e).2.map (·.id) =
    (e.map (·.term)).map fun x => ((number table e).1.find? x).getD 0 := by
  rw [← map_term_number table e, map_map]
  refine map_congr _ fun o ho => ?_
  have hfound := TermTable.find?_eq_some_iff.mpr (get?_of_mem_leaves_number table e ho)
  rw [Function.comp_apply, hfound, Option.getD_some]

theorem number_congr {e e' : Expr Mention} (h : e.map (·.term) = e'.map (·.term)) (table : TermTable) :
    (number table e).1 = (number table e').1 ∧ (number table e).2.map (·.id) = (number table e').2.map (·.id) := by
  have hleaves : e.leaves.map (·.term) = e'.leaves.map (·.term) := by rw [← leaves_map, h, leaves_map]
  have hterms : (number table e).1 = (number table e').1 := by rw [terms_number, hleaves, ← terms_number]
  exact ⟨hterms, by rw [map_id_number, map_id_number, h, hterms]⟩

theorem number_wrap (table : TermTable) (q : Quantifier) (e : Expr Mention) :
    number table (q.wrap e) = ((number table e).1, q.wrap (number table e).2) := by
  cases q <;> rfl

theorem numberAll_ne_nil {items : List (Expr Mention)} (h : items ≠ []) (table : TermTable) :
    (numberAll table items).2 ≠ [] := by
  cases items with
  | nil => exact absurd rfl h
  | cons e es => simp [numberAll]

end CallGrammar.Expr
