import CallGrammar.Proofs.Simulation
import Mathlib.Order.ConditionallyCompleteLattice.Basic

namespace CallGrammar.Nfa

abbrev Words := List TermId → Prop

abbrev Links := StateId → List TermId → StateId → Prop

inductive Route (links : Links) : StateId → List TermId → StateId → Prop where
  | nil (i : StateId) : Route links i [] i
  | cons {i j k : StateId} {u v : List TermId} : links i u j → Route links j v k → Route links i (u ++ v) k

def links (n : Nfa) : Links := fun i w j => w = [] ∧ j ∈ n.epsilons i ∨ ∃ t, w = [t] ∧ (t, j) ∈ n.edges i

def via (source : StateId) (L : Words) (target : StateId) : Links := fun i w j => i = source ∧ L w ∧ j = target

def nothing : Words := fun w => w = []

variable {A B C X : Links} {L M : Words} {i j k m s t p q : StateId} {b c : Nat} {u v w : List TermId}

theorem Route.append (h : Route A i u j) (h' : Route A j v k) : Route A i (u ++ v) k := by
  induction h with
  | nil => exact h'
  | cons hl _ ih =>
    rw [List.append_assoc]
    exact .cons hl (ih h')

theorem Route.single (h : A i w j) : Route A i w j := by
  have hroute := Route.cons h (.nil j)
  rwa [List.append_nil] at hroute

theorem Route.expand (h : Route B i w k) (hB : ∀ i w k, B i w k → Route A i w k) : Route A i w k := by
  induction h with
  | nil i => exact .nil i
  | cons hl _ ih => exact (hB _ _ _ hl).append ih

theorem Route.mono (h : Route B i w k) (hB : B ≤ A) : Route A i w k := h.expand fun _ _ _ hl => .single (hB _ _ _ hl)

theorem path_iff_route {n : Nfa} : n.Path i w k ↔ Route n.links i w k := by
  constructor
  · intro h
    induction h with
    | nil i => exact .nil i
    | epsilon he _ ih => exact .cons (.inl ⟨rfl, he⟩) ih
    | edge he _ ih => exact .cons (.inr ⟨_, rfl, he⟩) ih
  · intro h
    induction h with
    | nil i => exact .nil i
    | cons hl _ ih =>
      rcases hl with ⟨rfl, he⟩ | ⟨t, rfl, he⟩
      · exact .epsilon he ih
      · exact .edge he ih

theorem Path.mono {n n' : Nfa} (h : n.Path i w k) (hle : n.links ≤ n'.links) : n'.Path i w k :=
  path_iff_route.mpr ((path_iff_route.mp h).mono hle)

def Below (b : Nat) (A : Links) : Prop := ∀ i w k, A i w k → i < b ∧ k < b

def Avoids (A : Links) (m : StateId) : Prop := ∀ i w k, A i w k → i ≠ m ∧ k ≠ m

theorem Below.avoids (h : Below b A) (hm : b ≤ m) : Avoids A m := fun i w k hl =>
  ⟨Nat.ne_of_lt (Nat.lt_of_lt_of_le (h i w k hl).1 hm), Nat.ne_of_lt (Nat.lt_of_lt_of_le (h i w k hl).2 hm)⟩

theorem Avoids.sup (hA : Avoids A m) (hB : Avoids B m) : Avoids (A ⊔ B) m := fun i w k hl =>
  hl.elim (hA i w k) (hB i w k)

theorem Below.mono (h : Below b A) (hbc : b ≤ c) : Below c A := fun i w k hl =>
  ⟨Nat.lt_of_lt_of_le (h i w k hl).1 hbc, Nat.lt_of_lt_of_le (h i w k hl).2 hbc⟩

theorem Below.sup (hA : Below b A) (hB : Below b B) : Below b (A ⊔ B) := fun i w k hl =>
  hl.elim (hA i w k) (hB i w k)

theorem below_via (hs : s < b) (ht : t < b) : Below b (via s L t) := by
  rintro i w k ⟨rfl, _, rfl⟩
  exact ⟨hs, ht⟩

theorem WellFormed.below {n : Nfa} (h : n.WellFormed) : Below n.size n.links := by
  have hlt : ∀ {β : Type} {view : NfaState → List β} {x : β} {i : StateId},
      x ∈ (n.states[i]?).elim [] view → i < n.size := by
    intro β view x i hx
    by_contra hi
    rw [size] at hi
    simp [Array.getElem?_eq_none (Nat.le_of_not_lt hi)] at hx
  rintro i w k (⟨_, he⟩ | ⟨_, _, he⟩)
  · exact ⟨hlt he, h.epsilon_lt he⟩
  · exact ⟨hlt he, h.edge_lt he⟩

def SameBelow (b : Nat) (A B : Links) : Prop :=
  ∀ X, Below b X → ∀ i k, i < b → k < b → ∀ w, Route (A ⊔ X) i w k ↔ Route (B ⊔ X) i w k

theorem SameBelow.of_eq (h : A = B) : SameBelow b A B := by
  subst h
  exact fun _ _ _ _ _ _ _ => Iff.rfl

theorem SameBelow.trans (h : SameBelow b A B) (h' : SameBelow b B C) : SameBelow b A C := fun X hX i k hi hk w =>
  (h X hX i k hi hk w).trans (h' X hX i k hi hk w)

theorem SameBelow.mono (h : SameBelow c A B) (hbc : b ≤ c) : SameBelow b A B := fun X hX i k hi hk w =>
  h X (hX.mono hbc) i k (Nat.lt_of_lt_of_le hi hbc) (Nat.lt_of_lt_of_le hk hbc) w

theorem SameBelow.sup (h : SameBelow b A B) (hC : Below b C) : SameBelow b (A ⊔ C) (B ⊔ C) := by
  intro X hX i k hi hk w
  rw [sup_assoc, sup_assoc]
  exact h (C ⊔ X) (hC.sup hX) i k hi hk w

theorem SameBelow.route (h : SameBelow b A B) (hi : i < b) (hk : k < b) : Route A i w k ↔ Route B i w k := by
  have hbot : Below b ⊥ := fun _ _ _ hl => hl.elim
  simpa only [sup_bot_eq] using h ⊥ hbot i k hi hk w

def following (L M : Words) : Words := fun w => ∃ u v, w = u ++ v ∧ L u ∧ M v

theorem route_past_joint (hA : Avoids A m) (hs : s ≠ m) (ht : t ≠ m) (hk : k ≠ m)
    (h : Route (A ⊔ via s L m ⊔ via m M t) i w k) :
    (i ≠ m → Route (A ⊔ via s (following L M) t) i w k) ∧
    (i = m → ∃ u v, w = u ++ v ∧ M u ∧ Route (A ⊔ via s (following L M) t) t v k) := by
  induction h with
  | nil i => exact ⟨fun _ => .nil i, fun hi => absurd hi hk⟩
  | @cons i j k u v hl _ ih =>
    obtain ⟨ihout, ihin⟩ := ih hk
    rcases hl with (hl | ⟨rfl, hu, rfl⟩) | ⟨rfl, hu, rfl⟩
    · have hends := hA _ _ _ hl
      exact ⟨fun _ => .cons (.inl hl) (ihout hends.2), fun hi => absurd hi hends.1⟩
    · refine ⟨fun _ => ?_, fun hi => absurd hi hs⟩
      obtain ⟨u', v', rfl, hu', hrest⟩ := ihin rfl
      rw [← List.append_assoc]
      exact .cons (.inr ⟨rfl, ⟨u, u', rfl, hu, hu'⟩, rfl⟩) hrest
    · exact ⟨fun hi => absurd rfl hi, fun _ => ⟨u, v, rfl, hu, ihout ht⟩⟩

theorem route_through_joint (h : Route (A ⊔ via s (following L M) t) i w k) :
    Route (A ⊔ via s L m ⊔ via m M t) i w k := by
  apply h.expand
  rintro i w k (hl | ⟨rfl, ⟨u, v, rfl, hu, hv⟩, rfl⟩)
  · exact .single (.inl (.inl hl))
  · exact .cons (.inl (.inr ⟨rfl, hu, rfl⟩)) (.single (.inr ⟨rfl, hv, rfl⟩))

theorem sameBelow_joint (hA : Avoids A m) (hbm : b ≤ m) (hs : s < b) (ht : t < b) :
    SameBelow b (A ⊔ via s L m ⊔ via m M t) (A ⊔ via s (following L M) t) := by
  intro X hX i k hi hk w
  have hne : ∀ {x : StateId}, x < b → x ≠ m := fun hx => Nat.ne_of_lt (Nat.lt_of_lt_of_le hx hbm)
  have hout : A ⊔ via s L m ⊔ via m M t ⊔ X = A ⊔ X ⊔ via s L m ⊔ via m M t := by ac_rfl
  rw [hout, sup_right_comm A (via s (following L M) t)]
  constructor
  · intro h
    exact (route_past_joint (hA.sup (hX.avoids hbm)) (hne hs) (hne ht) (hne hk) h).1 (hne hi)
  · exact route_through_joint

inductive Repeats (L : Words) : List TermId → Prop where
  | last {u : List TermId} : L u → Repeats L u
  | more {u v : List TermId} : L u → Repeats L v → Repeats L (u ++ v)

abbrev loop (s p q t : StateId) (L : Words) : Links :=
  via s nothing p ⊔ via p L q ⊔ via q nothing p ⊔ via q nothing t

theorem route_of_repeats (h : Repeats L w) (hA : loop s p q t L ≤ A) : Route A s w t := by
  have hround : Route A p w q := by
    induction h with
    | last hu => exact .single (hA _ _ _ (.inl (.inl (.inr ⟨rfl, hu, rfl⟩))))
    | more hu _ ih =>
      refine .cons (hA _ _ _ (.inl (.inl (.inr ⟨rfl, hu, rfl⟩)))) ?_
      exact .cons (u := []) (hA _ _ _ (.inl (.inr ⟨rfl, rfl, rfl⟩))) ih
  have hin : Route A s [] p := .single (hA _ _ _ (.inl (.inl (.inl ⟨rfl, rfl, rfl⟩))))
  have hout : Route A q [] t := .single (hA _ _ _ (.inr ⟨rfl, rfl, rfl⟩))
  simpa using hin.append (hround.append hout)

theorem route_past_loop (hp : Avoids A p) (hq : Avoids A q) (hpq : p ≠ q) (hs : s ≠ p ∧ s ≠ q) (ht : t ≠ p ∧ t ≠ q)
    (hk : k ≠ p ∧ k ≠ q) (h : Route (A ⊔ loop s p q t L) i w k) :
    (i ≠ p ∧ i ≠ q → Route (A ⊔ via s (Repeats L) t) i w k) ∧
    (i = p → ∃ u v, w = u ++ v ∧ Repeats L u ∧ Route (A ⊔ via s (Repeats L) t) t v k) ∧
    (i = q → ∃ u v, w = u ++ v ∧ (u = [] ∨ Repeats L u) ∧ Route (A ⊔ via s (Repeats L) t) t v k) := by
  induction h with
  | nil i => exact ⟨fun _ => .nil i, fun hi => absurd hi hk.1, fun hi => absurd hi hk.2⟩
  | @cons i j k u v hl _ ih =>
    obtain ⟨ihout, ihp, ihq⟩ := ih hk
    rcases hl with hl | ((⟨rfl, rfl, rfl⟩ | ⟨rfl, hu, rfl⟩) | ⟨rfl, rfl, rfl⟩) | ⟨rfl, rfl, rfl⟩
    · obtain ⟨hip, hjp⟩ := hp _ _ _ hl
      obtain ⟨hiq, hjq⟩ := hq _ _ _ hl
      exact ⟨fun _ => .cons (.inl hl) (ihout ⟨hjp, hjq⟩), fun hi => absurd hi hip, fun hi => absurd hi hiq⟩
    · refine ⟨fun _ => ?_, fun hi => absurd hi hs.1, fun hi => absurd hi hs.2⟩
      obtain ⟨u', v', rfl, hu', hrest⟩ := ihp rfl
      exact .cons (u := u') (.inr ⟨rfl, hu', rfl⟩) hrest
    · refine ⟨fun hi => absurd rfl hi.1, fun _ => ?_, fun hi => absurd hi hpq⟩
      obtain ⟨u', v', rfl, rfl | hu', hrest⟩ := ihq rfl
      · exact ⟨u, v', rfl, .last hu, hrest⟩
      · exact ⟨u ++ u', v', by rw [List.append_assoc], .more hu hu', hrest⟩
    · refine ⟨fun hi => absurd rfl hi.2, fun hi => absurd hi.symm hpq, fun _ => ?_⟩
      obtain ⟨u', v', rfl, hu', hrest⟩ := ihp rfl
      exact ⟨u', v', rfl, .inr hu', hrest⟩
    · exact ⟨fun hi => absurd rfl hi.2, fun hi => absurd hi.symm hpq, fun _ => ⟨[], v, rfl, .inl rfl, ihout ht⟩⟩

theorem route_through_loop (h : Route (A ⊔ via s (Repeats L) t) i w k) : Route (A ⊔ loop s p q t L) i w k := by
  apply h.expand
  rintro i w k (hl | ⟨rfl, hw, rfl⟩)
  · exact .single (.inl hl)
  · exact route_of_repeats hw le_sup_right

theorem sameBelow_loop (hp : Avoids A p) (hq : Avoids A q) (hbp : b ≤ p) (hbq : b ≤ q) (hpq : p ≠ q) (hs : s < b)
    (ht : t < b) : SameBelow b (A ⊔ loop s p q t L) (A ⊔ via s (Repeats L) t) := by
  intro X hX i k hi hk w
  have hne : ∀ {x : StateId}, x < b → x ≠ p ∧ x ≠ q := fun hx =>
    ⟨Nat.ne_of_lt (Nat.lt_of_lt_of_le hx hbp), Nat.ne_of_lt (Nat.lt_of_lt_of_le hx hbq)⟩
  have hpX := hp.sup (hX.avoids hbp)
  have hqX := hq.sup (hX.avoids hbq)
  rw [sup_right_comm, sup_right_comm A (via s (Repeats L) t)]
  constructor
  · intro h
    exact (route_past_loop hpX hqX hpq (hne hs) (hne ht) (hne hk) h).1 (hne hi)
  · exact route_through_loop

end CallGrammar.Nfa
