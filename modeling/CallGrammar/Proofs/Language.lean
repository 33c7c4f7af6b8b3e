import CallGrammar.Expr.Language

namespace CallGrammar.Expr

variable {α β : Type} {e : Expr α} {es : List (Expr α)} {w : List α}

theorem matches_seq_nil_iff : Matches (.seq []) w ↔ w = [] := by
  constructor
  · intro h
    cases h
    rfl
  · rintro rfl
    exact .seqNil

theorem matches_seq_cons_iff :
    Matches (.seq (e :: es)) w ↔ ∃ u v, w = u ++ v ∧ Matches e u ∧ Matches (.seq es) v := by
  constructor
  · intro h
    cases h with
    | seqCons hu hv => exact ⟨_, _, rfl, hu, hv⟩
  · rintro ⟨u, v, rfl, hu, hv⟩
    exact .seqCons hu hv

theorem matches_seq_singleton_iff : Matches (.seq [e]) w ↔ Matches e w := by
  rw [matches_seq_cons_iff]
  constructor
  · rintro ⟨u, v, rfl, hu, hv⟩
    rw [matches_seq_nil_iff.mp hv, List.append_nil]
    exact hu
  · intro h
    exact ⟨w, [], (List.append_nil w).symm, h, .seqNil⟩

theorem matches_alt_cons_iff : Matches (.alt (e :: es)) w ↔ Matches e w ∨ Matches (.alt es) w := by
  constructor
  · intro h
    cases h with
    | alt hmem hw =>
      rcases List.mem_cons.mp hmem with rfl | hmem
      · exact .inl hw
      · exact .inr (.alt hmem hw)
  · rintro (h | h)
    · exact .alt List.mem_cons_self h
    · cases h with
      | alt hmem hw => exact .alt (List.mem_cons_of_mem e hmem) hw

theorem matches_map {v : List α} (f : α → β) (h : Matches e v) : Matches (e.map f) (v.map f) := by
  induction h with
  | term a => exact .term (f a)
  | seqNil => exact .seqNil
  | seqCons _ _ ihu ihv =>
    rw [List.map_append]
    exact .seqCons ihu ihv
  | alt hmem _ ih =>
    rw [map, mapAll_eq_map]
    exact .alt (List.mem_map_of_mem hmem) ih
  | starNil => exact .starNil
  | starCons _ _ ihu ihv =>
    rw [List.map_append]
    exact .starCons ihu ihv
  | plus _ _ ihu ihv =>
    rw [List.map_append]
    exact .plus ihu ihv
  | optionalNil => exact .optionalNil
  | optional _ ih => exact .optional ih

theorem exists_of_matches_map {f : α → β} {w : List β} (h : Matches (e.map f) w) : ∃ v, Matches e v ∧ v.map f = w := by
  generalize he : e.map f = e' at h
  induction h generalizing e with
  | term b =>
    cases e with
    | term a =>
      obtain rfl := (Expr.term.injEq _ _).mp he
      exact ⟨[a], .term a, rfl⟩
    | _ => simp [map] at he
  | seqNil =>
    cases e with
    | seq items =>
      rw [map, Expr.seq.injEq, mapAll_eq_map, List.map_eq_nil_iff] at he
      exact ⟨[], he ▸ .seqNil, rfl⟩
    | _ => simp [map] at he
  | seqCons _ _ ihu ihv =>
    cases e with
    | seq items =>
      rw [map, Expr.seq.injEq, mapAll_eq_map, List.map_eq_cons_iff] at he
      obtain ⟨e, es, rfl, rfl, rfl⟩ := he
      obtain ⟨u, hu, rfl⟩ := ihu rfl
      obtain ⟨v, hv, rfl⟩ := ihv (e := .seq es) (by rw [map, mapAll_eq_map])
      exact ⟨u ++ v, .seqCons hu hv, List.map_append⟩
    | _ => simp [map] at he
  | alt hmem _ ih =>
    cases e with
    | alt branches =>
      rw [map, Expr.alt.injEq, mapAll_eq_map] at he
      subst he
      obtain ⟨e, he, rfl⟩ := List.mem_map.mp hmem
      obtain ⟨v, hv, rfl⟩ := ih rfl
      exact ⟨v, .alt he hv, rfl⟩
    | _ => simp [map] at he
  | starNil =>
    cases e with
    | star inner => exact ⟨[], .starNil, rfl⟩
    | _ => simp [map] at he
  | starCons _ _ ihu ihv =>
    cases e with
    | star inner =>
      obtain rfl := (Expr.star.injEq _ _).mp he
      obtain ⟨u, hu, rfl⟩ := ihu rfl
      obtain ⟨v, hv, rfl⟩ := ihv (e := .star inner) rfl
      exact ⟨u ++ v, .starCons hu hv, List.map_append⟩
    | _ => simp [map] at he
  | plus _ _ ihu ihv =>
    cases e with
    | plus inner =>
      obtain rfl := (Expr.plus.injEq _ _).mp he
      obtain ⟨u, hu, rfl⟩ := ihu rfl
      obtain ⟨v, hv, rfl⟩ := ihv (e := .star inner) rfl
      exact ⟨u ++ v, .plus hu hv, List.map_append⟩
    | _ => simp [map] at he
  | optionalNil =>
    cases e with
    | optional inner => exact ⟨[], .optionalNil, rfl⟩
    | _ => simp [map] at he
  | optional _ ih =>
    cases e with
    | optional inner =>
      obtain rfl := (Expr.optional.injEq _ _).mp he
      obtain ⟨v, hv, rfl⟩ := ih rfl
      exact ⟨v, .optional hv, rfl⟩
    | _ => simp [map] at he

theorem matches_map_iff {f : α → β} {w : List β} : Matches (e.map f) w ↔ ∃ v, Matches e v ∧ v.map f = w := by
  constructor
  · exact exists_of_matches_map
  · rintro ⟨v, hv, rfl⟩
    exact matches_map f hv

theorem mem_leaves_of_matches {a : α} (h : Matches e w) (ha : a ∈ w) : a ∈ e.leaves := by
  induction h with
  | term b => exact ha
  | seqNil => exact absurd ha List.not_mem_nil
  | seqCons _ _ ihu ihv =>
    rw [leaves, leavesAll, List.mem_append]
    exact (List.mem_append.mp ha).imp ihu ihv
  | alt hmem _ ih =>
    rw [leaves, leavesAll_eq_flatMap]
    exact List.mem_flatMap.mpr ⟨_, hmem, ih ha⟩
  | starNil => exact absurd ha List.not_mem_nil
  | starCons _ _ ihu ihv => exact (List.mem_append.mp ha).elim ihu ihv
  | plus _ _ ihu ihv => exact (List.mem_append.mp ha).elim ihu ihv
  | optionalNil => exact absurd ha List.not_mem_nil
  | optional _ ih => exact ih ha

inductive Full : Expr α → Prop where
  | term (a : α) : Full (.term a)
  | seq {items : List (Expr α)} : items ≠ [] → (∀ e ∈ items, Full e) → Full (.seq items)
  | alt {branches : List (Expr α)} : branches ≠ [] → (∀ e ∈ branches, Full e) → Full (.alt branches)
  | star {e : Expr α} : Full e → Full (.star e)
  | plus {e : Expr α} : Full e → Full (.plus e)
  | optional {e : Expr α} : Full e → Full (.optional e)

theorem exists_matches_seq (h : ∀ e ∈ es, ∃ w, Matches e w) : ∃ w, Matches (.seq es) w := by
  induction es with
  | nil => exact ⟨[], .seqNil⟩
  | cons e es ih =>
    obtain ⟨⟨u, hu⟩, hes⟩ := List.forall_mem_cons.mp h
    obtain ⟨v, hv⟩ := ih hes
    exact ⟨u ++ v, .seqCons hu hv⟩

theorem exists_matches_seq_of_mem (h : ∀ e ∈ es, ∃ w, Matches e w) (he : e ∈ es) (hw : Matches e w) :
    ∃ v, Matches (.seq es) v ∧ w ⊆ v := by
  induction es with
  | nil => exact absurd he List.not_mem_nil
  | cons e' es ih =>
    obtain ⟨⟨u, hu⟩, hes⟩ := List.forall_mem_cons.mp h
    rcases List.mem_cons.mp he with rfl | he
    · obtain ⟨v, hv⟩ := exists_matches_seq hes
      exact ⟨w ++ v, .seqCons hw hv, List.subset_append_left w v⟩
    · obtain ⟨v, hv, hsub⟩ := ih hes he
      exact ⟨u ++ v, .seqCons hu hv, fun a ha => List.mem_append_right u (hsub ha)⟩

theorem Full.exists_matches (h : e.Full) : ∃ w, Matches e w := by
  induction h with
  | term a => exact ⟨[a], .term a⟩
  | seq _ _ ih => exact exists_matches_seq ih
  | alt hne _ ih =>
    obtain ⟨e, he⟩ := List.exists_mem_of_ne_nil _ hne
    obtain ⟨w, hw⟩ := ih e he
    exact ⟨w, .alt he hw⟩
  | star => exact ⟨[], .starNil⟩
  | plus _ ih =>
    obtain ⟨w, hw⟩ := ih
    exact ⟨w ++ [], .plus hw .starNil⟩
  | optional => exact ⟨[], .optionalNil⟩

theorem Full.exists_matches_of_mem_leaves {a : α} (h : e.Full) (ha : a ∈ e.leaves) : ∃ w, Matches e w ∧ a ∈ w := by
  induction h with
  | term b => exact ⟨[b], .term b, ha⟩
  | seq _ hitems ih =>
    rw [leaves, leavesAll_eq_flatMap] at ha
    obtain ⟨e, he, ha⟩ := List.mem_flatMap.mp ha
    obtain ⟨u, hu, hau⟩ := ih e he ha
    obtain ⟨w, hw, hsub⟩ := exists_matches_seq_of_mem (fun e he => (hitems e he).exists_matches) he hu
    exact ⟨w, hw, hsub hau⟩
  | alt _ _ ih =>
    rw [leaves, leavesAll_eq_flatMap] at ha
    obtain ⟨e, he, ha⟩ := List.mem_flatMap.mp ha
    obtain ⟨w, hw, haw⟩ := ih e he ha
    exact ⟨w, .alt he hw, haw⟩
  | star _ ih =>
    obtain ⟨w, hw, haw⟩ := ih ha
    exact ⟨w ++ [], .starCons hw .starNil, List.mem_append_left _ haw⟩
  | plus _ ih =>
    obtain ⟨w, hw, haw⟩ := ih ha
    exact ⟨w ++ [], .plus hw .starNil, List.mem_append_left _ haw⟩
  | optional _ ih =>
    obtain ⟨w, hw, haw⟩ := ih ha
    exact ⟨w, .optional hw, haw⟩

theorem full_seq_iff : Full (.seq es) ↔ es ≠ [] ∧ ∀ e ∈ es, e.Full := by
  constructor
  · intro h
    cases h with
    | seq hne hes => exact ⟨hne, hes⟩
  · rintro ⟨hne, hes⟩
    exact .seq hne hes

theorem full_alt_iff : Full (.alt es) ↔ es ≠ [] ∧ ∀ e ∈ es, e.Full := by
  constructor
  · intro h
    cases h with
    | alt hne hes => exact ⟨hne, hes⟩
  · rintro ⟨hne, hes⟩
    exact .alt hne hes

theorem full_star_iff : Full (.star e) ↔ e.Full := by
  constructor
  · intro h
    cases h with
    | star h => exact h
  · exact .star

theorem full_plus_iff : Full (.plus e) ↔ e.Full := by
  constructor
  · intro h
    cases h with
    | plus h => exact h
  · exact .plus

theorem full_optional_iff : Full (.optional e) ↔ e.Full := by
  constructor
  · intro h
    cases h with
    | optional h => exact h
  · exact .optional

mutual

theorem full_map_iff (f : α → β) (e : Expr α) : (e.map f).Full ↔ e.Full := by
  cases e with
  | term a => exact iff_of_true (.term (f a)) (.term a)
  | seq items =>
    rw [map, full_seq_iff, full_seq_iff, forall_full_mapAll_iff f items, mapAll_eq_map, ne_eq, List.map_eq_nil_iff]
  | alt branches =>
    rw [map, full_alt_iff, full_alt_iff, forall_full_mapAll_iff f branches, mapAll_eq_map, ne_eq, List.map_eq_nil_iff]
  | star inner => rw [map, full_star_iff, full_star_iff, full_map_iff f inner]
  | plus inner => rw [map, full_plus_iff, full_plus_iff, full_map_iff f inner]
  | optional inner => rw [map, full_optional_iff, full_optional_iff, full_map_iff f inner]

theorem forall_full_mapAll_iff (f : α → β) (es : List (Expr α)) :
    (∀ e ∈ mapAll f es, e.Full) ↔ ∀ e ∈ es, e.Full := by
  cases es with
  | nil => simp [mapAll]
  | cons e es => rw [mapAll, List.forall_mem_cons, List.forall_mem_cons, full_map_iff f e, forall_full_mapAll_iff f es]

end

end CallGrammar.Expr
