import CallGrammar.Dfa.Isomorphism
import CallGrammar.Proofs.Renumbering
import Mathlib.Data.List.Perm.Subperm

namespace CallGrammar

namespace Dfa

variable {d e : Dfa} {i j a b : StateId} {t : TermId} {g : StateId → StateId}

namespace Pairs

variable {pairs : Pairs}

structure OneToOne (pairs : Pairs) : Prop where
  left : (pairs.map (·.1)).Nodup
  right : (pairs.map (·.2)).Nodup

theorem image?_eq_none_iff : pairs.image? a = none ↔ a ∉ pairs.map (·.1) := by
  rw [image?, Option.map_eq_none_iff, List.find?_eq_none, List.mem_map]
  constructor
  · rintro h ⟨p, hp, rfl⟩
    exact h p hp (by simp)
  · intro h p hp hpa
    exact h ⟨p, hp, by simpa using hpa⟩

theorem preimage?_eq_none_iff : pairs.preimage? b = none ↔ b ∉ pairs.map (·.2) := by
  rw [preimage?, Option.map_eq_none_iff, List.find?_eq_none, List.mem_map]
  constructor
  · rintro h ⟨p, hp, rfl⟩
    exact h p hp (by simp)
  · intro h p hp hpb
    exact h ⟨p, hp, by simpa using hpb⟩

theorem mem_of_image? (h : pairs.image? a = some b) : (a, b) ∈ pairs := by
  obtain ⟨⟨a', b'⟩, hfind, rfl⟩ := Option.map_eq_some_iff.mp h
  obtain rfl : a' = a := by simpa using List.find?_some hfind
  exact List.mem_of_find?_eq_some hfind

theorem mem_of_preimage? (h : pairs.preimage? b = some a) : (a, b) ∈ pairs := by
  obtain ⟨⟨a', b'⟩, hfind, rfl⟩ := Option.map_eq_some_iff.mp h
  obtain rfl : b' = b := by simpa using List.find?_some hfind
  exact List.mem_of_find?_eq_some hfind

theorem OneToOne.right_eq {b' : StateId} (h : pairs.OneToOne) (hb : (a, b) ∈ pairs) (hb' : (a, b') ∈ pairs) : b = b' :=
  congrArg Prod.snd (List.inj_on_of_nodup_map h.left hb hb' rfl)

theorem OneToOne.left_eq {a' : StateId} (h : pairs.OneToOne) (ha : (a, b) ∈ pairs) (ha' : (a', b) ∈ pairs) : a = a' :=
  congrArg Prod.fst (List.inj_on_of_nodup_map h.right ha ha' rfl)

theorem OneToOne.image?_eq (h : pairs.OneToOne) (hb : (a, b) ∈ pairs) : pairs.image? a = some b := by
  cases himage : pairs.image? a with
  | none => exact absurd (List.mem_map.mpr ⟨(a, b), hb, rfl⟩) (image?_eq_none_iff.mp himage)
  | some b' => rw [h.right_eq (mem_of_image? himage) hb]

theorem OneToOne.preimage?_eq (h : pairs.OneToOne) (ha : (a, b) ∈ pairs) : pairs.preimage? b = some a := by
  cases hpreimage : pairs.preimage? b with
  | none => exact absurd (List.mem_map.mpr ⟨(a, b), ha, rfl⟩) (preimage?_eq_none_iff.mp hpreimage)
  | some a' => rw [h.left_eq (mem_of_preimage? hpreimage) ha]

theorem OneToOne.cons (h : pairs.OneToOne) (ha : a ∉ pairs.map (·.1)) (hb : b ∉ pairs.map (·.2)) :
    OneToOne ((a, b) :: pairs) :=
  ⟨List.nodup_cons.mpr ⟨ha, h.left⟩, List.nodup_cons.mpr ⟨hb, h.right⟩⟩

end Pairs

variable {pairs pairs' found done queue : Pairs} {s partner : DfaState} {edges : List (TermId × StateId)}

theorem pairTargets_cons_cases (h : pairTargets partner ((t, a) :: edges) pairs = some (pairs', found)) :
    ∃ b, partner.next? t = some b ∧
      ((a ∉ pairs.map (·.1) ∧ b ∉ pairs.map (·.2) ∧ ∃ later, found = (a, b) :: later ∧
          pairTargets partner edges ((a, b) :: pairs) = some (pairs', later)) ∨
        ((a, b) ∈ pairs ∧ pairTargets partner edges pairs = some (pairs', found))) := by
  obtain ⟨b, hb, h⟩ := Option.bind_eq_some_iff.mp h
  refine ⟨b, hb, ?_⟩
  split at h
  · rename_i himage hpreimage
    obtain ⟨⟨_, later⟩, hlater, hpair⟩ := Option.map_eq_some_iff.mp h
    obtain ⟨rfl, rfl⟩ := Prod.mk.inj hpair
    exact .inl ⟨Pairs.image?_eq_none_iff.mp himage, Pairs.preimage?_eq_none_iff.mp hpreimage, later, rfl, hlater⟩
  · rename_i b' a' himage _
    split at h
    · rename_i hsame
      exact .inr ⟨hsame.1 ▸ Pairs.mem_of_image? himage, h⟩
    · cases h
  · cases h

theorem pairTargets_cons_of_mem (hp : pairs.OneToOne) (hnext : partner.next? t = some b) (hmem : (a, b) ∈ pairs) :
    pairTargets partner ((t, a) :: edges) pairs = pairTargets partner edges pairs := by
  rw [pairTargets, hnext, Option.bind_some, hp.image?_eq hmem, hp.preimage?_eq hmem]
  simp

theorem pairTargets_cons_of_notMem (hnext : partner.next? t = some b) (ha : a ∉ pairs.map (·.1))
    (hb : b ∉ pairs.map (·.2)) : pairTargets partner ((t, a) :: edges) pairs =
      (pairTargets partner edges ((a, b) :: pairs)).map fun r => (r.1, (a, b) :: r.2) := by
  rw [pairTargets, hnext, Option.bind_some, Pairs.image?_eq_none_iff.mpr ha, Pairs.preimage?_eq_none_iff.mpr hb]

structure TargetsPaired (partner : DfaState) (edges : List (TermId × StateId)) (pairs pairs' found : Pairs) : Prop where
  oneToOne : pairs'.OneToOne
  perm : (pairs ++ found).Perm pairs'
  targets {t : TermId} {a : StateId} : (t, a) ∈ edges → ∃ b, partner.next? t = some b ∧ (a, b) ∈ pairs'
  found {a b : StateId} : (a, b) ∈ found → ∃ t, (t, a) ∈ edges ∧ partner.next? t = some b

namespace TargetsPaired

theorem edge (h : TargetsPaired partner edges pairs pairs' found) (hb : partner.next? t = some b)
    (hmem : (a, b) ∈ pairs') : TargetsPaired partner ((t, a) :: edges) pairs pairs' found where
  oneToOne := h.oneToOne
  perm := h.perm
  targets {x c} hx := by
    rcases List.mem_cons.mp hx with hx | hx
    · obtain ⟨rfl, rfl⟩ := Prod.mk.inj hx
      exact ⟨b, hb, hmem⟩
    · exact h.targets hx
  found hc := by
    obtain ⟨x, hx, hnext⟩ := h.found hc
    exact ⟨x, List.mem_cons_of_mem _ hx, hnext⟩

theorem late (h : TargetsPaired partner edges ((a, b) :: pairs) pairs' found) (hedge : (t, a) ∈ edges)
    (hb : partner.next? t = some b) : TargetsPaired partner edges pairs pairs' ((a, b) :: found) where
  oneToOne := h.oneToOne
  perm := List.perm_middle.trans h.perm
  targets := h.targets
  found {c c'} hc := by
    rcases List.mem_cons.mp hc with hc | hc
    · obtain ⟨rfl, rfl⟩ := Prod.mk.inj hc
      exact ⟨t, hedge, hb⟩
    · exact h.found hc

end TargetsPaired

theorem targetsPaired_of_pairTargets (hp : pairs.OneToOne)
    (h : pairTargets partner edges pairs = some (pairs', found)) : TargetsPaired partner edges pairs pairs' found := by
  induction edges generalizing pairs found with
  | nil =>
    obtain ⟨rfl, rfl⟩ := Prod.mk.inj (Option.some.inj h)
    exact ⟨hp, by simp, by simp, by simp⟩
  | cons edge edges ih =>
    obtain ⟨t, a⟩ := edge
    obtain ⟨b, hb, ⟨ha, hnew, later, rfl, hlater⟩ | ⟨hmem, hrest⟩⟩ := pairTargets_cons_cases h
    · have hpaired := ih (hp.cons ha hnew) hlater
      have hmem : (a, b) ∈ pairs' := hpaired.perm.subset (by simp)
      exact (hpaired.edge hb hmem).late List.mem_cons_self hb
    · have hpaired := ih hp hrest
      exact hpaired.edge hb (hpaired.perm.subset (List.mem_append_left _ hmem))

structure Agree (d e : Dfa) (pairs : Pairs) (a b : StateId) : Prop where
  isFinal : e.isFinal b = d.isFinal a
  step (t : TermId) : Option.Rel (fun i j => (i, j) ∈ pairs) (d.step a t) (e.step b t)

theorem rel_cases {r : StateId → StateId → Prop} {x y : Option StateId} (h : Option.Rel r x y) :
    x = none ∧ y = none ∨ ∃ i j, x = some i ∧ y = some j ∧ r i j := by
  cases h with
  | none => exact .inl ⟨rfl, rfl⟩
  | some hij => exact .inr ⟨_, _, rfl, rfl, hij⟩

theorem Agree.mono (h : Agree d e pairs a b) (hsub : pairs ⊆ pairs') : Agree d e pairs' a b where
  isFinal := h.isFinal
  step t := by
    rcases rel_cases (h.step t) with ⟨hd, he⟩ | ⟨i, j, hd, he, hmem⟩ <;> rw [hd, he]
    · exact .none
    · exact .some (hsub hmem)

theorem mem_terms_iff_of_length_eq {s s' : DfaState} (hsub : s.terms ⊆ s'.terms)
    (hlen : s.edges.length = s'.edges.length) : t ∈ s.terms ↔ t ∈ s'.terms := by
  have hle : s'.terms.length ≤ s.terms.length := by
    rw [DfaState.terms, DfaState.terms, List.length_map, List.length_map, hlen]
  exact ((List.subperm_of_subset s.nodup hsub).perm_of_length_le hle).mem_iff

theorem agree_of_targetsPaired (hs : d.get? a = some s) (hpartner : e.get? b = some partner)
    (hfinal : s.isFinal = partner.isFinal) (hlen : s.edges.length = partner.edges.length)
    (h : TargetsPaired partner s.edges pairs pairs' found) : Agree d e pairs' a b where
  isFinal := by rw [isFinal, isFinal, hs, hpartner, Option.any_some, Option.any_some, hfinal]
  step t := by
    have hsub : s.terms ⊆ partner.terms := by
      intro x hx
      obtain ⟨⟨x, c⟩, hxc, rfl⟩ := List.mem_map.mp hx
      obtain ⟨c', hc', _⟩ := h.targets hxc
      exact List.mem_map.mpr ⟨(x, c'), DfaState.next?_eq_some_iff.mp hc', rfl⟩
    rw [Dfa.step, Dfa.step, hs, hpartner, Option.bind_some, Option.bind_some]
    cases hnext : s.next? t with
    | none =>
      have hnot := mt (mem_terms_iff_of_length_eq hsub hlen).mpr (DfaState.next?_eq_none_iff.mp hnext)
      rw [DfaState.next?_eq_none_iff.mpr hnot]
      exact .none
    | some i =>
      obtain ⟨j, hj, hmem⟩ := h.targets (DfaState.next?_eq_some_iff.mp hnext)
      rw [hj]
      exact .some hmem

structure Compared (d e : Dfa) (done queue pairs : Pairs) : Prop where
  oneToOne : pairs.OneToOne
  perm : (done ++ queue).Perm pairs
  start : (start, start) ∈ pairs
  traced {a b : StateId} : (a, b) ∈ pairs → ∃ w, d.run w = some a ∧ e.run w = some b
  agree {a b : StateId} : (a, b) ∈ done → Agree d e pairs a b

theorem compared_start (d e : Dfa) : Compared d e [] [(start, start)] [(start, start)] where
  oneToOne := ⟨by simp, by simp⟩
  perm := .refl _
  start := List.mem_singleton_self _
  traced h := by
    obtain ⟨rfl, rfl⟩ := Prod.mk.inj (List.mem_singleton.mp h)
    exact ⟨[], rfl, rfl⟩
  agree h := absurd h List.not_mem_nil

namespace Compared

theorem extend (h : Compared d e done ((a, b) :: queue) pairs) (hs : d.get? a = some s) (hpartner : e.get? b = some partner)
    (hfinal : s.isFinal = partner.isFinal) (hlen : s.edges.length = partner.edges.length)
    (hpaired : TargetsPaired partner s.edges pairs pairs' found) :
    Compared d e (done ++ [(a, b)]) (queue ++ found) pairs' where
  oneToOne := hpaired.oneToOne
  perm := by
    refine List.Perm.trans ?_ hpaired.perm
    rw [List.append_assoc, List.singleton_append, ← List.cons_append, ← List.append_assoc]
    exact h.perm.append_right found
  start := hpaired.perm.subset (List.mem_append_left _ h.start)
  traced {i j} hij := by
    rcases List.mem_append.mp (hpaired.perm.mem_iff.mpr hij) with hij | hij
    · exact h.traced hij
    · obtain ⟨w, hd, he⟩ := h.traced (h.perm.subset (List.mem_append_right _ List.mem_cons_self))
      obtain ⟨t, hedge, hnext⟩ := hpaired.found hij
      refine ⟨w ++ [t], run_concat hd ?_, run_concat he ?_⟩
      · rwa [Dfa.edges, hs]
      · rw [Dfa.edges, hpartner]
        exact DfaState.next?_eq_some_iff.mp hnext
  agree {i j} hij := by
    rcases List.mem_append.mp hij with hij | hij
    · exact (h.agree hij).mono fun _ hp => hpaired.perm.subset (List.mem_append_left _ hp)
    · obtain ⟨rfl, rfl⟩ := Prod.mk.inj (List.mem_singleton.mp hij)
      exact agree_of_targetsPaired hs hpartner hfinal hlen hpaired

theorem exists_states (h : Compared d e done queue pairs) (hd : d.WellFormed) (he : e.WellFormed) (hdsize : 0 < d.size)
    (hesize : 0 < e.size) (hmem : (a, b) ∈ pairs) : ∃ s partner, d.get? a = some s ∧ e.get? b = some partner := by
  obtain ⟨w, ha, hb⟩ := h.traced hmem
  have ha : a < d.states.size := hd.lt_size_of_mem_reached hdsize ⟨w, ha⟩
  have hb : b < e.states.size := he.lt_size_of_mem_reached hesize ⟨w, hb⟩
  exact ⟨_, _, Array.getElem?_eq_getElem ha, Array.getElem?_eq_getElem hb⟩

theorem length_le (h : Compared d e done queue pairs) (hd : d.WellFormed) (hdsize : 0 < d.size) :
    done.length + queue.length ≤ d.size := by
  have hsub : pairs.map (·.1) ⊆ List.range d.size := by
    intro a ha
    obtain ⟨⟨a, b⟩, hmem, rfl⟩ := List.mem_map.mp ha
    obtain ⟨w, hw, _⟩ := h.traced hmem
    exact List.mem_range.mpr (hd.lt_size_of_mem_reached hdsize ⟨w, hw⟩)
  have hlength := (List.subperm_of_subset h.oneToOne.left hsub).length_le
  rwa [List.length_map, List.length_range, ← h.perm.length_eq, List.length_append] at hlength

section

variable (h : Compared d e done [] pairs)
include h

theorem agree_of_mem (hmem : (a, b) ∈ pairs) : Agree d e pairs a b := by
  have hdone : (a, b) ∈ done ++ [] := h.perm.mem_iff.mpr hmem
  rw [List.append_nil] at hdone
  exact h.agree hdone

theorem rel_runFrom (hmem : (a, b) ∈ pairs) (w : List TermId) :
    Option.Rel (fun i j => (i, j) ∈ pairs) (d.runFrom a w) (e.runFrom b w) := by
  induction w generalizing a b with
  | nil => exact .some hmem
  | cons t w ih =>
    rw [Dfa.runFrom, Dfa.runFrom]
    rcases rel_cases ((h.agree_of_mem hmem).step t) with ⟨hd, he⟩ | ⟨i, j, hd, he, hij⟩ <;> rw [hd, he]
    · exact .none
    · exact ih hij

theorem mem_reached_left_iff : a ∈ d.reached ↔ ∃ b, (a, b) ∈ pairs := by
  constructor
  · rintro ⟨w, hw⟩
    rcases rel_cases (h.rel_runFrom h.start w) with ⟨hd, _⟩ | ⟨i, j, hd, _, hij⟩
    · cases hd.symm.trans hw
    · obtain rfl := Option.some.inj (hd.symm.trans hw)
      exact ⟨j, hij⟩
  · rintro ⟨b, hb⟩
    obtain ⟨w, hw, _⟩ := h.traced hb
    exact ⟨w, hw⟩

theorem mem_reached_right_iff : b ∈ e.reached ↔ ∃ a, (a, b) ∈ pairs := by
  constructor
  · rintro ⟨w, hw⟩
    rcases rel_cases (h.rel_runFrom h.start w) with ⟨_, he⟩ | ⟨i, j, _, he, hij⟩
    · cases he.symm.trans hw
    · obtain rfl := Option.some.inj (he.symm.trans hw)
      exact ⟨i, hij⟩
  · rintro ⟨a, ha⟩
    obtain ⟨w, _, hw⟩ := h.traced ha
    exact ⟨w, hw⟩

theorem exists_renumbers : ∃ g, Renumbers d e d.reached e.reached g := by
  let g : StateId → StateId := fun a => (pairs.image? a).getD Dfa.start
  have hg : ∀ {a b}, (a, b) ∈ pairs → g a = b := by
    intro a b hmem
    change (pairs.image? a).getD Dfa.start = b
    rw [h.oneToOne.image?_eq hmem]
    rfl
  refine ⟨g, ⟨?_, ?_, ?_⟩, hg h.start, ?_, ?_⟩
  · intro a ha
    obtain ⟨b, hb⟩ := h.mem_reached_left_iff.mp ha
    rw [hg hb]
    exact h.mem_reached_right_iff.mpr ⟨a, hb⟩
  · intro a ha a' ha' hsame
    obtain ⟨b, hb⟩ := h.mem_reached_left_iff.mp ha
    obtain ⟨b', hb'⟩ := h.mem_reached_left_iff.mp ha'
    rw [hg hb, hg hb'] at hsame
    exact h.oneToOne.left_eq hb (hsame ▸ hb')
  · intro b hb
    obtain ⟨a, ha⟩ := h.mem_reached_right_iff.mp hb
    exact ⟨a, h.mem_reached_left_iff.mpr ⟨b, ha⟩, hg ha⟩
  · intro a ha
    obtain ⟨b, hb⟩ := h.mem_reached_left_iff.mp ha
    rw [hg hb, (h.agree_of_mem hb).isFinal]
  · intro a ha t
    obtain ⟨b, hb⟩ := h.mem_reached_left_iff.mp ha
    rw [hg hb]
    rcases rel_cases ((h.agree_of_mem hb).step t) with ⟨hd, he⟩ | ⟨i, j, hd, he, hij⟩ <;> rw [hd, he]
    · rfl
    · rw [Option.map_some, hg hij]

theorem length_eq_reachable (hd : d.WellFormed) (hdsize : 0 < d.size) :
    ∃ order, d.reachable = some order ∧ pairs.length = order.length := by
  obtain ⟨order, horder, hnodup, hmem⟩ := hd.exists_reachable hdsize
  have hperm : (pairs.map (·.1)).Perm order := by
    refine (List.perm_ext_iff_of_nodup h.oneToOne.left hnodup).mpr fun a => ?_
    rw [hmem, h.mem_reached_left_iff]
    simp
  exact ⟨order, horder, by rw [← hperm.length_eq, List.length_map]⟩

end

end Compared

section

variable (hg : Renumbers d e d.reached e.reached g)
include hg

theorem length_edges_eq_of_renumbers (ha : a ∈ d.reached) (hs : d.get? a = some s)
    (hpartner : e.get? (g a) = some partner) : s.edges.length = partner.edges.length := by
  have hnext (t : TermId) : partner.next? t = (s.next? t).map g := by
    have hstep := hg.step ha t
    rwa [Dfa.step, Dfa.step, hs, hpartner, Option.bind_some, Option.bind_some] at hstep
  have hterms (t : TermId) : t ∈ s.terms ↔ t ∈ partner.terms := by
    rw [← not_iff_not, ← DfaState.next?_eq_none_iff, ← DfaState.next?_eq_none_iff, hnext, Option.map_eq_none_iff]
  have hperm : s.terms.Perm partner.terms := (List.perm_ext_iff_of_nodup s.nodup partner.nodup).mpr hterms
  simpa [DfaState.terms] using hperm.length_eq

theorem exists_pairTargets_of_renumbers (hp : pairs.OneToOne)
    (hpairs : ∀ {i j}, (i, j) ∈ pairs → i ∈ d.reached ∧ g i = j)
    (hedges : ∀ {t i}, (t, i) ∈ edges → i ∈ d.reached ∧ partner.next? t = some (g i)) :
    ∃ r, pairTargets partner edges pairs = some r := by
  induction edges generalizing pairs with
  | nil => exact ⟨_, rfl⟩
  | cons edge edges ih =>
    obtain ⟨t, i⟩ := edge
    obtain ⟨hi, hnext⟩ := hedges List.mem_cons_self
    have hrest : ∀ {t i}, (t, i) ∈ edges → i ∈ d.reached ∧ partner.next? t = some (g i) :=
      fun h => hedges (List.mem_cons_of_mem _ h)
    by_cases hmem : (i, g i) ∈ pairs
    · obtain ⟨r, hr⟩ := ih hp hpairs hrest
      exact ⟨r, by rw [pairTargets_cons_of_mem hp hnext hmem, hr]⟩
    · have hleft : i ∉ pairs.map (·.1) := by
        intro h
        obtain ⟨⟨i, j⟩, hij, rfl⟩ := List.mem_map.mp h
        exact hmem ((hpairs hij).2 ▸ hij)
      have hright : g i ∉ pairs.map (·.2) := by
        intro h
        obtain ⟨⟨k, j⟩, hkj, hj⟩ := List.mem_map.mp h
        obtain ⟨hk, hkg⟩ := hpairs hkj
        obtain rfl := hg.bijOn.injOn hk hi (hkg.trans hj)
        exact hmem (hkg ▸ hkj)
      have hcons : ∀ {k j}, (k, j) ∈ (i, g i) :: pairs → k ∈ d.reached ∧ g k = j := by
        intro k j hkj
        rcases List.mem_cons.mp hkj with hkj | hkj
        · obtain ⟨rfl, rfl⟩ := Prod.mk.inj hkj
          exact ⟨hi, rfl⟩
        · exact hpairs hkj
      obtain ⟨r, hr⟩ := ih (hp.cons hleft hright) hcons hrest
      exact ⟨_, by rw [pairTargets_cons_of_notMem hnext hleft hright, hr]; rfl⟩

end

theorem Compared.partner_eq (h : Compared d e done queue pairs) (hg : Renumbers d e d.reached e.reached g)
    (hmem : (a, b) ∈ pairs) : a ∈ d.reached ∧ g a = b := by
  obtain ⟨w, ha, hb⟩ := h.traced hmem
  have hrun := hg.run w
  rw [ha, hb] at hrun
  exact ⟨⟨w, ha⟩, (Option.some.inj hrun).symm⟩

theorem Compared.agree_of_renumbers (h : Compared d e done ((a, b) :: queue) pairs)
    (hg : Renumbers d e d.reached e.reached g) (hs : d.get? a = some s) (hpartner : e.get? b = some partner) :
    s.isFinal = partner.isFinal ∧ s.edges.length = partner.edges.length ∧
      ∃ r, pairTargets partner s.edges pairs = some r := by
  obtain ⟨ha, rfl⟩ := h.partner_eq hg (h.perm.subset (List.mem_append_right _ List.mem_cons_self))
  refine ⟨?_, length_edges_eq_of_renumbers hg ha hs hpartner, ?_⟩
  · have hfinal := hg.isFinal ha
    rw [isFinal, isFinal, hs, hpartner] at hfinal
    exact hfinal.symm
  · refine exists_pairTargets_of_renumbers hg h.oneToOne (h.partner_eq hg) fun {t i} hedge => ?_
    have hstep : d.step a t = some i := by
      rw [Dfa.step, hs]
      exact DfaState.next?_eq_some_iff.mpr hedge
    have hpartnerStep := hg.step ha t
    rw [hstep, Dfa.step, hpartner] at hpartnerStep
    exact ⟨mem_reached_of_step ha hstep, hpartnerStep⟩

theorem comparePairs_cases (hd : d.WellFormed) (he : e.WellFormed) (hdsize : 0 < d.size) (hesize : 0 < e.size)
    {rounds : Nat} (h : Compared d e done queue pairs) (hrounds : d.size < rounds + done.length) :
    (comparePairs d e rounds pairs queue = .differing ∧ ¬ ∃ g, Renumbers d e d.reached e.reached g) ∨
    ∃ all, comparePairs d e rounds pairs queue = .agreeing all ∧ ∃ done, Compared d e done [] all := by
  induction rounds generalizing done queue pairs with
  | zero =>
    have hlength := h.length_le hd hdsize
    omega
  | succ rounds ih =>
    cases queue with
    | nil => exact .inr ⟨pairs, by rw [comparePairs], done, h⟩
    | cons pair queue =>
      obtain ⟨a, b⟩ := pair
      have hmem : (a, b) ∈ pairs := h.perm.subset (List.mem_append_right _ List.mem_cons_self)
      obtain ⟨s, partner, hs, hpartner⟩ := h.exists_states hd he hdsize hesize hmem
      rw [comparePairs, hs, hpartner]
      simp only
      split
      · rename_i hdiffer
        refine .inl ⟨rfl, fun ⟨g, hg⟩ => ?_⟩
        obtain ⟨hfinal, hlen, _⟩ := h.agree_of_renumbers hg hs hpartner
        exact hdiffer.elim (absurd hfinal) (absurd hlen)
      · rename_i hsame
        simp only [ne_eq, not_or, not_not] at hsame
        split
        · rename_i hnone
          refine .inl ⟨rfl, fun ⟨g, hg⟩ => ?_⟩
          obtain ⟨_, _, r, hr⟩ := h.agree_of_renumbers hg hs hpartner
          rw [hnone] at hr
          cases hr
        · rename_i hpaired
          refine ih (h.extend hs hpartner hsame.1 hsame.2 (targetsPaired_of_pairTargets h.oneToOne hpaired)) ?_
          rw [List.length_append, List.length_singleton]
          omega

theorem isomorphic?_cases (hd : d.WellFormed) (he : e.WellFormed) :
    (d.isomorphic? e = some true ∧ Isomorphic d e) ∨ (d.isomorphic? e = some false ∧ ¬ Isomorphic d e) := by
  rw [isomorphic?]
  split
  · rename_i hsize
    exact .inr ⟨rfl, fun h => hsize h.1⟩
  · rename_i hsize
    simp only [ne_eq, not_not] at hsize
    split
    · rename_i hzero
      exact .inl ⟨rfl, hsize, .inl hzero⟩
    · rename_i hpos
      have hdsize : 0 < d.size := Nat.pos_of_ne_zero hpos
      rcases comparePairs_cases hd he hdsize (hsize ▸ hdsize) (compared_start d e) (Nat.lt_succ_self _) with
        ⟨hcompare, hnot⟩ | ⟨all, hcompare, done, hall⟩ <;> rw [hcompare]
      · exact .inr ⟨rfl, fun h => hnot (h.2.resolve_left hpos)⟩
      · obtain ⟨order, horder, hlength⟩ := hall.length_eq_reachable hd hdsize
        refine .inl ⟨?_, hsize, .inr hall.exists_renumbers⟩
        simp only [horder, hlength, Option.map_some, decide_true]

theorem comparePairs_succ {rounds : Nat} (h : comparePairs d e rounds pairs queue ≠ .unfinished) :
    comparePairs d e (rounds + 1) pairs queue = comparePairs d e rounds pairs queue := by
  induction rounds generalizing pairs queue with
  | zero =>
    cases queue with
    | nil => simp only [comparePairs]
    | cons pair queue => exact absurd (by rw [comparePairs]) h
  | succ rounds ih =>
    cases queue with
    | nil => simp only [comparePairs]
    | cons pair queue =>
      obtain ⟨a, b⟩ := pair
      rw [comparePairs] at h ⊢
      rw [comparePairs]
      cases hs : d.get? a with
      | none => rfl
      | some s =>
        cases hpartner : e.get? b with
        | none => rfl
        | some partner =>
          simp only [hs, hpartner] at h ⊢
          split at h
          · rename_i hdiffer
            rw [if_pos hdiffer, if_pos hdiffer]
          · rename_i hsame
            rw [if_neg hsame, if_neg hsame]
            cases hpaired : pairTargets partner s.edges pairs with
            | none => rfl
            | some found =>
              simp only [hpaired] at h ⊢
              exact ih h

theorem comparePairs_ne_unfinished (hd : d.WellFormed) (he : e.WellFormed) (hdsize : 0 < d.size) (hesize : 0 < e.size)
    {rounds : Nat} (hrounds : d.size < rounds) :
    comparePairs d e rounds [(start, start)] [(start, start)] ≠ .unfinished := by
  rcases comparePairs_cases hd he hdsize hesize (compared_start d e) hrounds with ⟨hcompare, _⟩ | ⟨all, hcompare, _⟩ <;>
    simp [hcompare]

theorem comparePairs_eq_of_lt (hd : d.WellFormed) (he : e.WellFormed) (hdsize : 0 < d.size) (hesize : 0 < e.size)
    {rounds : Nat} (hrounds : d.size < rounds) : comparePairs d e rounds [(start, start)] [(start, start)] =
      comparePairs d e (d.size + 1) [(start, start)] [(start, start)] := by
  induction rounds, hrounds using Nat.le_induction with
  | base => rfl
  | succ rounds hrounds ih =>
    exact (comparePairs_succ (comparePairs_ne_unfinished hd he hdsize hesize hrounds)).trans ih

structure Decides (d e : Dfa) : Prop where
  answers : ∃ answer, d.isomorphic? e = some answer
  rounds {rounds : Nat} : 0 < d.size → 0 < e.size → d.size < rounds →
    comparePairs d e rounds [(start, start)] [(start, start)] ≠ .unfinished ∧
      comparePairs d e rounds [(start, start)] [(start, start)] =
        comparePairs d e (d.size + 1) [(start, start)] [(start, start)]
  iff : d.isomorphic? e = some true ↔ Isomorphic d e
  refl : d.isomorphic? d = some true
  symm : d.isomorphic? e = e.isomorphic? d
  trans {f : Dfa} : f.WellFormed → d.isomorphic? e = some true → e.isomorphic? f = some true →
    d.isomorphic? f = some true
  full : (∀ i < d.size, i ∈ d.reached) → (∀ j < e.size, j ∈ e.reached) →
    (d.isomorphic? e = some true ↔ ∃ g, Renumbers d e (Set.Iio d.size) (Set.Iio e.size) g)
  accepts : d.isomorphic? e = some true → ∀ w, d.accepts w = e.accepts w

theorem isomorphic?_eq_some_true_iff (hd : d.WellFormed) (he : e.WellFormed) :
    d.isomorphic? e = some true ↔ Isomorphic d e := by
  rcases isomorphic?_cases hd he with ⟨hanswer, h⟩ | ⟨hanswer, h⟩ <;> rw [hanswer]
  · exact iff_of_true rfl h
  · exact iff_of_false (by simp) h

theorem isomorphic?_comm (hd : d.WellFormed) (he : e.WellFormed) : d.isomorphic? e = e.isomorphic? d := by
  rcases isomorphic?_cases hd he with ⟨hanswer, h⟩ | ⟨hanswer, h⟩
  · rw [hanswer, (isomorphic?_eq_some_true_iff he hd).mpr h.symm]
  · rcases isomorphic?_cases he hd with ⟨_, h'⟩ | ⟨hanswer', _⟩
    · exact absurd h'.symm h
    · rw [hanswer, hanswer']

theorem isomorphic?_decides (hd : d.WellFormed) (he : e.WellFormed) : Decides d e where
  answers := (isomorphic?_cases hd he).elim (fun h => ⟨_, h.1⟩) fun h => ⟨_, h.1⟩
  rounds hdsize hesize hrounds :=
    ⟨comparePairs_ne_unfinished hd he hdsize hesize hrounds, comparePairs_eq_of_lt hd he hdsize hesize hrounds⟩
  iff := isomorphic?_eq_some_true_iff hd he
  refl := (isomorphic?_eq_some_true_iff hd hd).mpr (.refl d)
  symm := isomorphic?_comm hd he
  trans hf h h' := (isomorphic?_eq_some_true_iff hd hf).mpr
    (((isomorphic?_eq_some_true_iff hd he).mp h).trans ((isomorphic?_eq_some_true_iff he hf).mp h'))
  full hdall heall := (isomorphic?_eq_some_true_iff hd he).trans (isomorphic_iff_of_forall hd he hdall heall)
  accepts h := ((isomorphic?_eq_some_true_iff hd he).mp h).accepts_eq

def looped : Dfa :=
  ⟨#[.ofEdges false [(0, 1), (1, 2)], .ofEdges true [], .ofEdges false [(1, 2), (0, 1)], .ofEdges true [(0, 3)]]⟩

def loopedAnew : Dfa :=
  ⟨#[.ofEdges false [(1, 3), (0, 2)], .ofEdges false [], .ofEdges true [], .ofEdges false [(0, 2), (1, 3)]]⟩

theorem isomorphic?_decides_looped : looped.WellFormed ∧ loopedAnew.WellFormed ∧ Decides looped loopedAnew ∧
    looped.isomorphic? loopedAnew = some true := by
  have hd : looped.WellFormed := by decide
  have he : loopedAnew.WellFormed := by decide
  exact ⟨hd, he, isomorphic?_decides hd he, by decide⟩

end Dfa

end CallGrammar
