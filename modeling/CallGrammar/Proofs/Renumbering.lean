import CallGrammar.Proofs.Runs
import Mathlib.Data.Set.Card
import Mathlib.Order.Interval.Finset.Nat

namespace CallGrammar

namespace Dfa

variable {d e f : Dfa} {i : StateId} {S T : Set StateId} {g : StateId → StateId}

structure Renumbers (d e : Dfa) (S T : Set StateId) (g : StateId → StateId) : Prop where
  bijOn : Set.BijOn g S T
  start : g start = start
  isFinal {i : StateId} : i ∈ S → e.isFinal (g i) = d.isFinal i
  step {i : StateId} : i ∈ S → ∀ t, e.step (g i) t = (d.step i t).map g

def Isomorphic (d e : Dfa) : Prop :=
  d.size = e.size ∧ (d.size = 0 ∨ ∃ g, Renumbers d e d.reached e.reached g)

theorem Renumbers.runFrom (h : Renumbers d e d.reached e.reached g) (hi : i ∈ d.reached) (w : List TermId) :
    e.runFrom (g i) w = (d.runFrom i w).map g := by
  induction w generalizing i with
  | nil => rfl
  | cons t w ih =>
    rw [Dfa.runFrom, Dfa.runFrom, h.step hi]
    cases hstep : d.step i t with
    | none => rfl
    | some j => exact ih (mem_reached_of_step hi hstep)

theorem Renumbers.run (h : Renumbers d e d.reached e.reached g) (w : List TermId) : e.run w = (d.run w).map g := by
  have hrun := h.runFrom d.start_mem_reached w
  rwa [h.start] at hrun

namespace Renumbers

theorem refl (d : Dfa) (S : Set StateId) : Renumbers d d S S id where
  bijOn := Set.bijOn_id S
  start := rfl
  isFinal _ := rfl
  step _ _ := by rw [id, Option.map_id, id]

theorem symm (h : Renumbers d e d.reached e.reached g) : ∃ g', Renumbers e d e.reached d.reached g' := by
  obtain ⟨hleft, hright⟩ := h.bijOn.invOn_invFunOn
  have hbijOn := Set.BijOn.symm ⟨hright, hleft⟩ h.bijOn
  refine ⟨Function.invFunOn g d.reached, hbijOn, ?_, ?_, ?_⟩
  · have hstart := hleft d.start_mem_reached
    rwa [h.start] at hstart
  · intro j hj
    rw [← h.isFinal (hbijOn.mapsTo hj), hright hj]
  · intro j hj t
    have hstep := h.step (hbijOn.mapsTo hj) t
    rw [hright hj] at hstep
    rw [hstep, Option.map_map]
    cases hd : d.step (Function.invFunOn g d.reached j) t with
    | none => rfl
    | some i => exact congrArg some (hleft (mem_reached_of_step (hbijOn.mapsTo hj) hd)).symm

theorem trans {U : Set StateId} {g' : StateId → StateId} (h : Renumbers d e S T g) (h' : Renumbers e f T U g') :
    Renumbers d f S U (g' ∘ g) where
  bijOn := h'.bijOn.comp h.bijOn
  start := by rw [Function.comp_apply, h.start, h'.start]
  isFinal hi := by rw [Function.comp_apply, h'.isFinal (h.bijOn.mapsTo hi), h.isFinal hi]
  step hi t := by rw [Function.comp_apply, h'.step (h.bijOn.mapsTo hi), h.step hi, Option.map_map]

theorem accepts_eq (h : Renumbers d e d.reached e.reached g) (w : List TermId) : e.accepts w = d.accepts w := by
  rw [accepts, accepts, h.run]
  cases hrun : d.run w with
  | none => rfl
  | some i => exact h.isFinal ⟨w, hrun⟩

end Renumbers

namespace Isomorphic

theorem refl (d : Dfa) : Isomorphic d d := ⟨rfl, .inr ⟨id, .refl d d.reached⟩⟩

theorem symm (h : Isomorphic d e) : Isomorphic e d := by
  refine ⟨h.1.symm, h.2.imp (fun hzero => h.1 ▸ hzero) ?_⟩
  rintro ⟨g, hg⟩
  exact hg.symm

theorem trans (h : Isomorphic d e) (h' : Isomorphic e f) : Isomorphic d f := by
  refine ⟨h.1.trans h'.1, ?_⟩
  rcases h.2 with hzero | ⟨g, hg⟩
  · exact .inl hzero
  · rcases h'.2 with hzero | ⟨g', hg'⟩
    · exact .inl (h.1.trans hzero)
    · exact .inr ⟨g' ∘ g, hg.trans hg'⟩

theorem accepts_eq (h : Isomorphic d e) (w : List TermId) : d.accepts w = e.accepts w := by
  rcases h.2 with hzero | ⟨g, hg⟩
  · have hd : d.states = #[] := Array.eq_empty_of_size_eq_zero hzero
    have he : e.states = #[] := Array.eq_empty_of_size_eq_zero (h.1.symm.trans hzero)
    have hsame : d = e := by
      cases d
      cases e
      congr 1
      exact hd.trans he.symm
    rw [hsame]
  · exact (hg.accepts_eq w).symm

end Isomorphic

theorem reached_eq_of_forall (hd : d.WellFormed) (hdsize : 0 < d.size) (hall : ∀ i < d.size, i ∈ d.reached) :
    d.reached = Set.Iio d.size :=
  Set.Subset.antisymm (fun _ hi => hd.lt_size_of_mem_reached hdsize hi) hall

theorem Renumbers.size_eq (h : Renumbers d e (Set.Iio d.size) (Set.Iio e.size) g) : d.size = e.size := by
  have hcard := h.bijOn.ncard_eq
  rwa [Set.ncard_eq_toFinset_card', Set.ncard_eq_toFinset_card', Set.toFinset_Iio, Set.toFinset_Iio, Nat.card_Iio,
    Nat.card_Iio] at hcard

theorem isomorphic_iff_of_forall (hd : d.WellFormed) (he : e.WellFormed) (hdall : ∀ i < d.size, i ∈ d.reached)
    (heall : ∀ j < e.size, j ∈ e.reached) :
    Isomorphic d e ↔ ∃ g, Renumbers d e (Set.Iio d.size) (Set.Iio e.size) g := by
  have hsets (hsize : d.size = e.size) (hpos : 0 < d.size) :
      d.reached = Set.Iio d.size ∧ e.reached = Set.Iio e.size :=
    ⟨reached_eq_of_forall hd hpos hdall, reached_eq_of_forall he (hsize ▸ hpos) heall⟩
  constructor
  · rintro ⟨hsize, hmaps⟩
    rcases Nat.eq_zero_or_pos d.size with hzero | hpos
    · have hnone (i : StateId) : i ∉ Set.Iio d.size := by simp [hzero]
      rw [← hsize]
      exact ⟨id, Set.bijOn_id _, rfl, fun hi => absurd hi (hnone _), fun hi => absurd hi (hnone _)⟩
    · obtain ⟨hdset, heset⟩ := hsets hsize hpos
      rw [← hdset, ← heset]
      exact hmaps.resolve_left (Nat.ne_of_gt hpos)
  · rintro ⟨g, hg⟩
    refine ⟨hg.size_eq, ?_⟩
    rcases Nat.eq_zero_or_pos d.size with hzero | hpos
    · exact .inl hzero
    · obtain ⟨hdset, heset⟩ := hsets hg.size_eq hpos
      rw [hdset, heset]
      exact .inr ⟨g, hg⟩

end Dfa

end CallGrammar
