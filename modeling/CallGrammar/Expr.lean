namespace CallGrammar

inductive Expr (α : Type) where
  | term (a : α)
  | seq (items : List (Expr α))
  | alt (branches : List (Expr α))
  | star (inner : Expr α)
  | plus (inner : Expr α)
  | optional (inner : Expr α)
  deriving Repr

namespace Expr

variable {α β γ : Type}

mutual

def decEq [DecidableEq α] : (a b : Expr α) → Decidable (a = b)
  | .term a, b => match b with
    | .term b => decidable_of_iff (a = b) (by simp)
    | .seq _ | .alt _ | .star _ | .plus _ | .optional _ => isFalse nofun
  | .seq as, b => match b with
    | .seq bs => let _ := decEqAll as bs; decidable_of_iff (as = bs) (by simp)
    | .term _ | .alt _ | .star _ | .plus _ | .optional _ => isFalse nofun
  | .alt as, b => match b with
    | .alt bs => let _ := decEqAll as bs; decidable_of_iff (as = bs) (by simp)
    | .term _ | .seq _ | .star _ | .plus _ | .optional _ => isFalse nofun
  | .star a, b => match b with
    | .star b => let _ := decEq a b; decidable_of_iff (a = b) (by simp)
    | .term _ | .seq _ | .alt _ | .plus _ | .optional _ => isFalse nofun
  | .plus a, b => match b with
    | .plus b => let _ := decEq a b; decidable_of_iff (a = b) (by simp)
    | .term _ | .seq _ | .alt _ | .star _ | .optional _ => isFalse nofun
  | .optional a, b => match b with
    | .optional b => let _ := decEq a b; decidable_of_iff (a = b) (by simp)
    | .term _ | .seq _ | .alt _ | .star _ | .plus _ => isFalse nofun

def decEqAll [DecidableEq α] : (as bs : List (Expr α)) → Decidable (as = bs)
  | [], [] => isTrue rfl
  | [], _ :: _ => isFalse nofun
  | _ :: _, [] => isFalse nofun
  | a :: as, b :: bs =>
      let _ := decEq a b
      let _ := decEqAll as bs
      decidable_of_iff (a = b ∧ as = bs) (by simp)

end

instance [DecidableEq α] : DecidableEq (Expr α) := decEq

mutual

def map (f : α → β) : Expr α → Expr β
  | .term a => .term (f a)
  | .seq items => .seq (mapAll f items)
  | .alt branches => .alt (mapAll f branches)
  | .star inner => .star (map f inner)
  | .plus inner => .plus (map f inner)
  | .optional inner => .optional (map f inner)

def mapAll (f : α → β) : List (Expr α) → List (Expr β)
  | [] => []
  | e :: es => map f e :: mapAll f es

end

theorem mapAll_eq_map (f : α → β) (es : List (Expr α)) : mapAll f es = es.map (map f) := by
  induction es with
  | nil => rfl
  | cons e es ih => simp [mapAll, ih]

mutual

def leaves : Expr α → List α
  | .term a => [a]
  | .seq items => leavesAll items
  | .alt branches => leavesAll branches
  | .star inner => leaves inner
  | .plus inner => leaves inner
  | .optional inner => leaves inner

def leavesAll : List (Expr α) → List α
  | [] => []
  | e :: es => leaves e ++ leavesAll es

end

theorem leavesAll_eq_flatMap (es : List (Expr α)) : leavesAll es = es.flatMap leaves := by
  induction es with
  | nil => rfl
  | cons e es ih => simp [leavesAll, ih]

mutual

theorem leaves_map (f : α → β) (e : Expr α) : (e.map f).leaves = e.leaves.map f := by
  cases e with
  | term a => rfl
  | seq items => exact leavesAll_mapAll f items
  | alt branches => exact leavesAll_mapAll f branches
  | star inner => exact leaves_map f inner
  | plus inner => exact leaves_map f inner
  | optional inner => exact leaves_map f inner

theorem leavesAll_mapAll (f : α → β) (es : List (Expr α)) : leavesAll (mapAll f es) = (leavesAll es).map f := by
  cases es with
  | nil => rfl
  | cons e es => rw [mapAll, leavesAll, leavesAll, List.map_append, leaves_map, leavesAll_mapAll]

end

mutual

theorem map_map (g : β → γ) (f : α → β) (e : Expr α) : (e.map f).map g = e.map (g ∘ f) := by
  cases e with
  | term a => rfl
  | seq items => exact congrArg seq (mapAll_mapAll g f items)
  | alt branches => exact congrArg alt (mapAll_mapAll g f branches)
  | star inner => exact congrArg star (map_map g f inner)
  | plus inner => exact congrArg plus (map_map g f inner)
  | optional inner => exact congrArg optional (map_map g f inner)

theorem mapAll_mapAll (g : β → γ) (f : α → β) (es : List (Expr α)) : mapAll g (mapAll f es) = mapAll (g ∘ f) es := by
  cases es with
  | nil => rfl
  | cons e es => rw [mapAll, mapAll, mapAll, map_map, mapAll_mapAll]

end

mutual

theorem map_congr {f g : α → β} (e : Expr α) (h : ∀ a ∈ e.leaves, f a = g a) : e.map f = e.map g := by
  cases e with
  | term a => exact congrArg term (h a List.mem_cons_self)
  | seq items => exact congrArg seq (mapAll_congr items h)
  | alt branches => exact congrArg alt (mapAll_congr branches h)
  | star inner => exact congrArg star (map_congr inner h)
  | plus inner => exact congrArg plus (map_congr inner h)
  | optional inner => exact congrArg optional (map_congr inner h)

theorem mapAll_congr {f g : α → β} (es : List (Expr α)) (h : ∀ a ∈ leavesAll es, f a = g a) :
    mapAll f es = mapAll g es := by
  cases es with
  | nil => rfl
  | cons e es =>
    rw [mapAll, mapAll, map_congr e fun a ha => h a (List.mem_append_left _ ha),
      mapAll_congr es fun a ha => h a (List.mem_append_right _ ha)]

end

end Expr

end CallGrammar
