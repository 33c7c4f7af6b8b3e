import CallGrammar.Proofs.Spelling

namespace CallGrammar.Expr

variable {α : Type} {e e' : Expr α} {es es' : List (Expr α)} {w : List α}

def Same (e e' : Expr α) : Prop := ∀ w, Matches e w ↔ Matches e' w

namespace Same

theorem refl (e : Expr α) : Same e e := fun _ => Iff.rfl

theorem trans {e'' : Expr α} (h : Same e e') (h' : Same e' e'') : Same e e'' := fun w => (h w).trans (h' w)

theorem cons_seq (h : Same e e') (hes : Same (.seq es) (.seq es')) : Same (.seq (e :: es)) (.seq (e' :: es')) := by
  intro w
  simp only [matches_seq_cons_iff, h _, hes _]

theorem cons_alt (h : Same e e') (hes : Same (.alt es) (.alt es')) : Same (.alt (e :: es)) (.alt (e' :: es')) := by
  intro w
  rw [matches_alt_cons_iff, matches_alt_cons_iff, h w, hes w]

end Same

theorem matches_star_mono (h : ∀ w, Matches e w → Matches e' w) (hw : Matches (.star e) w) : Matches (.star e') w := by
  generalize hs : Expr.star e = s at hw
  induction hw with
  | starNil => exact .starNil
  | starCons hu _ _ ihv =>
    obtain rfl := (Expr.star.injEq _ _).mp hs
    exact .starCons (h _ hu) (ihv hs)
  | _ => cases hs

theorem matches_plus_iff : Matches (.plus e) w ↔ ∃ u v, w = u ++ v ∧ Matches e u ∧ Matches (.star e) v := by
  constructor
  · intro h
    cases h with
    | plus hu hv => exact ⟨_, _, rfl, hu, hv⟩
  · rintro ⟨u, v, rfl, hu, hv⟩
    exact .plus hu hv

theorem Same.star (h : Same e e') : Same (.star e) (.star e') := fun _ =>
  ⟨matches_star_mono fun w => (h w).mp, matches_star_mono fun w => (h w).mpr⟩

theorem Same.plus (h : Same e e') : Same (.plus e) (.plus e') := by
  intro w
  simp only [matches_plus_iff, h _, h.star _]

theorem Same.optional (h : Same e e') : Same (.optional e) (.optional e') := by
  intro w
  rw [matches_optional_iff, matches_optional_iff, h w]

theorem same_seq_singleton (e : Expr α) : Same (.seq [e]) e := fun _ => matches_seq_singleton_iff

theorem same_alt_singleton (e : Expr α) : Same (.alt [e]) e := by
  intro w
  rw [matches_alt_cons_iff, or_iff_left (not_matches_alt_nil w)]

theorem same_alt_seq_singleton (e : Expr α) : Same (.alt [.seq [e]]) e :=
  (same_alt_singleton _).trans (same_seq_singleton e)

theorem same_shape (pos : Position) (e : Expr α) : Same (shape pos e) e := by
  cases pos with
  | top =>
    cases e with
    | alt branches => exact .refl _
    | seq items => exact same_alt_singleton _
    | term | star | plus | optional => exact same_alt_seq_singleton _
  | branch =>
    cases e with
    | seq items => exact .refl _
    | term | alt | star | plus | optional => exact same_seq_singleton _
  | item =>
    cases e with
    | seq items => exact same_alt_singleton _
    | term | alt | star | plus | optional => exact .refl _
  | operand =>
    cases e with
    | term | alt => exact .refl _
    | seq items => exact same_alt_singleton _
    | star | plus | optional => exact same_alt_seq_singleton _

mutual

theorem same_normalAt (pos : Position) (e : Expr α) : Same (normalAt pos e) e := by
  cases e with
  | term a => exact same_shape pos _
  | seq items => exact (same_shape pos _).trans (same_normalAll_seq .item items)
  | alt branches => exact (same_shape pos _).trans (same_normalAll_alt .branch branches)
  | star inner => exact (same_shape pos _).trans (same_normalAt .operand inner).star
  | plus inner => exact (same_shape pos _).trans (same_normalAt .operand inner).plus
  | optional inner => exact (same_shape pos _).trans (same_normalAt .operand inner).optional

theorem same_normalAll_seq (pos : Position) (es : List (Expr α)) : Same (.seq (normalAll pos es)) (.seq es) := by
  cases es with
  | nil => exact .refl _
  | cons e es => exact (same_normalAt pos e).cons_seq (same_normalAll_seq pos es)

theorem same_normalAll_alt (pos : Position) (es : List (Expr α)) : Same (.alt (normalAll pos es)) (.alt es) := by
  cases es with
  | nil => exact .refl _
  | cons e es => exact (same_normalAt pos e).cons_alt (same_normalAll_alt pos es)

end

theorem leaves_shape (pos : Position) (e : Expr α) : (shape pos e).leaves = e.leaves := by
  cases pos <;> cases e <;> simp [shape, leaves, leavesAll]

mutual

theorem leaves_normalAt (pos : Position) (e : Expr α) : (normalAt pos e).leaves = e.leaves := by
  cases e with
  | term a => exact leaves_shape pos _
  | seq items => exact (leaves_shape pos _).trans (leavesAll_normalAll .item items)
  | alt branches => exact (leaves_shape pos _).trans (leavesAll_normalAll .branch branches)
  | star inner => exact (leaves_shape pos _).trans (leaves_normalAt .operand inner)
  | plus inner => exact (leaves_shape pos _).trans (leaves_normalAt .operand inner)
  | optional inner => exact (leaves_shape pos _).trans (leaves_normalAt .operand inner)

theorem leavesAll_normalAll (pos : Position) (es : List (Expr α)) : leavesAll (normalAll pos es) = leavesAll es := by
  cases es with
  | nil => rfl
  | cons e es => rw [normalAll, leavesAll, leavesAll, leaves_normalAt, leavesAll_normalAll]

end

end CallGrammar.Expr
