import CallGrammar.Expr

namespace CallGrammar.Expr

variable {α : Type}

inductive Matches : Expr α → List α → Prop where
  | term (a : α) : Matches (.term a) [a]
  | seqNil : Matches (.seq []) []
  | seqCons {e : Expr α} {es : List (Expr α)} {u v : List α} :
      Matches e u → Matches (.seq es) v → Matches (.seq (e :: es)) (u ++ v)
  | alt {e : Expr α} {es : List (Expr α)} {w : List α} : e ∈ es → Matches e w → Matches (.alt es) w
  | starNil {e : Expr α} : Matches (.star e) []
  | starCons {e : Expr α} {u v : List α} :
      Matches e u → Matches (.star e) v → Matches (.star e) (u ++ v)
  | plus {e : Expr α} {u v : List α} : Matches e u → Matches (.star e) v → Matches (.plus e) (u ++ v)
  | optionalNil {e : Expr α} : Matches (.optional e) []
  | optional {e : Expr α} {w : List α} : Matches e w → Matches (.optional e) w

theorem matches_term_iff {a : α} {w : List α} : Matches (.term a) w ↔ w = [a] := by
  constructor
  · intro h
    cases h
    rfl
  · rintro rfl
    exact .term a

theorem not_matches_alt_nil (w : List α) : ¬ Matches (.alt []) w := by
  intro h
  cases h with
  | alt hmem _ => simp at hmem

theorem matches_optional_iff {e : Expr α} {w : List α} : Matches (.optional e) w ↔ w = [] ∨ Matches e w := by
  constructor
  · intro h
    cases h with
    | optionalNil => exact .inl rfl
    | optional h => exact .inr h
  · rintro (rfl | h)
    · exact .optionalNil
    · exact .optional h

end CallGrammar.Expr
