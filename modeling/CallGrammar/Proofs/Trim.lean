import CallGrammar.Proofs.Fragment

namespace CallGrammar.Nfa

open CallGrammar.Expr (Matches Full)

variable {n m o : Nfa} {s t b j : Nat} {w : List TermId} {P Q : Nat → Prop}

structure Spans (m : Nfa) (s t : Nat) (P : Nat → Prop) : Prop where
  crossed : ∃ w, m.Path s w t
  through {j : Nat} : P j → ∃ u v, m.Path s u j ∧ m.Path j v t

theorem path_of_links (h : m.links s w t) : m.Path s w t := path_iff_route.mpr (.single h)

namespace Spans

theorem of_path (h : m.Path s w t) (hP : ∀ j, ¬ P j) : Spans m s t P where
  crossed := ⟨w, h⟩
  through hj := absurd hj (hP _)

theorem mono (h : Spans m s t P) (hle : m.links ≤ o.links) (hP : ∀ j, Q j → P j) : Spans o s t Q where
  crossed := by
    obtain ⟨w, hw⟩ := h.crossed
    exact ⟨w, hw.mono hle⟩
  through hj := by
    obtain ⟨u, v, hu, hv⟩ := h.through (hP _ hj)
    exact ⟨u, v, hu.mono hle, hv.mono hle⟩

theorem join (h : Spans m s b P) (h' : Spans m b t Q) : Spans m s t (fun j => P j ∨ Q j ∨ j = b) where
  crossed := by
    obtain ⟨u, hu⟩ := h.crossed
    obtain ⟨v, hv⟩ := h'.crossed
    exact ⟨u ++ v, hu.append hv⟩
  through := by
    obtain ⟨w, hw⟩ := h.crossed
    obtain ⟨w', hw'⟩ := h'.crossed
    rintro j (hj | hj | rfl)
    · obtain ⟨u, v, hu, hv⟩ := h.through hj
      exact ⟨u, v ++ w', hu, hv.append hw'⟩
    · obtain ⟨u, v, hu, hv⟩ := h'.through hj
      exact ⟨w ++ u, v, hw.append hu, hv⟩
    · exact ⟨w, w', hw, hw'⟩

theorem addLoop {skippable : Bool} {body : Nfa → StateId → StateId → Nfa} {L : Words} (hn : n.WellFormed)
    (hs : s < n.size) (hfragment : ∀ {n : Nfa} {s t : Nat}, n.WellFormed → s < n.size → t < n.size →
      Fragment n.size n (body n s t) s L t)
    (hspans : ∀ {n : Nfa} {s t : Nat}, n.WellFormed → s < n.size → t < n.size →
      Spans (body n s t) s t (fun j => n.size ≤ j ∧ j < (body n s t).size)) :
    Spans (n.addLoop s t skippable body) s t (fun j => n.size ≤ j ∧ j < (n.addLoop s t skippable body).size) := by
  have hsize : (n.around s).size = n.size + 2 := size_around
  have hbody := hfragment (hn.around hs) (s := n.size) (t := n.size + 1) (by omega) (by omega)
  have hinner := hspans (hn.around hs) (s := n.size) (t := n.size + 1) (by omega) (by omega)
  rw [addLoop_eq_closeLoop]
  generalize body (n.around s) n.size (n.size + 1) = m at hbody hinner
  have hle := hbody.size_le
  have hlinks : (m.closeLoop n.size (n.size + 1) t skippable).links =
      m.links ⊔ closing n.size (n.size + 1) t skippable := links_closeLoop (by omega) (by omega)
  have hin : (m.closeLoop n.size (n.size + 1) t skippable).Path s [] n.size := by
    apply path_of_links
    rw [hlinks]
    refine .inl (hbody.keeps _ _ _ ?_)
    rw [links_around hs]
    exact .inr ⟨rfl, rfl, rfl⟩
  have hout : (m.closeLoop n.size (n.size + 1) t skippable).Path (n.size + 1) [] t := by
    apply path_of_links
    rw [hlinks]
    exact .inr (.inl (.inr ⟨rfl, rfl, rfl⟩))
  have hkept : m.links ≤ (m.closeLoop n.size (n.size + 1) t skippable).links := hlinks ▸ le_sup_left
  have hround := (of_path hin fun _ => id).join (hinner.mono hkept fun _ => id)
  refine (hround.join (of_path hout fun _ => id)).mono le_rfl ?_
  intro j hj
  rw [size_closeLoop] at hj
  rw [hsize]
  omega

end Spans

mutual

theorem spans_addExpr {e : Expr TermId} (he : e.Full) {n : Nfa} {s t : Nat} (hn : n.WellFormed) (hs : s < n.size)
    (ht : t < n.size) : Spans (addExpr n e s t) s t (fun j => n.size ≤ j ∧ j < (addExpr n e s t).size) := by
  cases e with
  | term x =>
    have hlink : (n.addEdge s x t).links s [x] t := by
      rw [links_addEdge hs]
      exact .inr ⟨rfl, rfl, rfl⟩
    refine .of_path (path_of_links hlink) ?_
    intro j hj
    rw [addExpr, size_addEdge] at hj
    omega
  | seq items =>
    cases he with
    | seq hne hitems =>
      have hstates := size_addStates n (items.length - 1)
      rw [addExpr]
      refine (spans_addItems hne hitems (hn.addStates _) hs ht (Nat.le_of_eq hstates.symm) ?_).mono le_rfl ?_
      · intro j hj _
        rw [links_addStates]
        exact hn.below.avoids hj
      · intro j hj
        omega
  | alt branches =>
    cases he with
    | alt hne hbranches =>
      rw [addExpr]
      exact spans_addBranches hne hbranches hn hs ht
  | star inner =>
    cases he with
    | star he =>
      rw [addExpr]
      exact .addLoop hn hs (fragment_addExpr inner) (spans_addExpr he)
  | plus inner =>
    cases he with
    | plus he =>
      rw [addExpr]
      exact .addLoop hn hs (fragment_addExpr inner) (spans_addExpr he)
  | optional inner =>
    cases he with
    | optional he =>
      have hsize := (fragment_addExpr inner hn hs ht).size_le
      rw [addExpr]
      refine (spans_addExpr he hn hs ht).mono ?_ ?_
      · rw [links_addEpsilon (hs.trans_le hsize)]
        exact le_sup_left
      · intro j hj
        rwa [size_addEpsilon] at hj

theorem spans_addItems {es : List (Expr TermId)} (hne : es ≠ []) (hes : ∀ e ∈ es, e.Full) {n : Nfa} {s b t : Nat}
    (hn : n.WellFormed) (hs : s < b) (ht : t < b) (hb : b + (es.length - 1) ≤ n.size)
    (hjoints : ∀ j, b ≤ j → j < b + (es.length - 1) → Avoids n.links j) :
    Spans (addItems n es s b t) s t (fun j => b ≤ j ∧ j < b + (es.length - 1) ∨
      n.size ≤ j ∧ j < (addItems n es s b t).size) := by
  match es with
  | [e] =>
    rw [addItems]
    refine (spans_addExpr (hes e List.mem_cons_self) hn (by omega) (by omega)).mono le_rfl ?_
    intro j hj
    simp only [List.length_cons, List.length_nil] at hj
    omega
  | e :: e' :: es =>
    simp only [List.length_cons, Nat.add_sub_cancel] at hb hjoints
    have hfirst := fragment_addExpr e hn (s := s) (t := b) (by omega) (by omega)
    have hsize := hfirst.size_le
    have hbefore := spans_addExpr (hes e List.mem_cons_self) hn (s := s) (t := b) (by omega) (by omega)
    have hlater : b + 1 + ((e' :: es).length - 1) ≤ (addExpr n e s b).size := by
      simp only [List.length_cons, Nat.add_sub_cancel]
      omega
    have hfree : ∀ j, b + 1 ≤ j → j < b + 1 + ((e' :: es).length - 1) → Avoids (addExpr n e s b).links j := by
      intro j hj hlast
      simp only [List.length_cons, Nat.add_sub_cancel] at hlast
      exact hfirst.avoids_joints hs hb hjoints hj (by omega)
    have hbb : b < b + 1 := Nat.lt_succ_self b
    have htb : t < b + 1 := Nat.lt_succ_of_lt ht
    have hrest := fragment_addItems (e' :: es) hfirst.wellFormed hbb htb hlater hfree
    have hafter := spans_addItems (by simp) (fun f hf => hes f (List.mem_cons_of_mem e hf)) hfirst.wellFormed hbb htb
      hlater hfree
    rw [addItems]
    · refine ((hbefore.mono hrest.keeps fun _ => id).join hafter).mono le_rfl ?_
      intro j hj
      simp only [List.length_cons, Nat.add_sub_cancel] at hj ⊢
      omega
    · simp

theorem spans_addBranches {es : List (Expr TermId)} (hne : es ≠ []) (hes : ∀ e ∈ es, e.Full) {n : Nfa} {s t : Nat}
    (hn : n.WellFormed) (hs : s < n.size) (ht : t < n.size) :
    Spans (addBranches n es s t) s t (fun j => n.size ≤ j ∧ j < (addBranches n es s t).size) := by
  match es with
  | e :: es =>
    have hfirst := fragment_addExpr e hn hs ht
    have hrest := fragment_addBranches es hfirst.wellFormed (hs.trans_le hfirst.size_le) (ht.trans_le hfirst.size_le)
    have hspans := spans_addExpr (hes e List.mem_cons_self) hn hs ht
    rw [addBranches]
    refine ⟨(hspans.mono hrest.keeps fun _ => id).crossed, ?_⟩
    intro j hj
    rcases Nat.lt_or_ge j (addExpr n e s t).size with hold | hnew
    · exact (hspans.mono hrest.keeps fun _ => id).through ⟨hj.1, hold⟩
    · have hes' : es ≠ [] := by
        rintro rfl
        rw [addBranches] at hj
        omega
      exact (spans_addBranches hes' (fun f hf => hes f (List.mem_cons_of_mem e hf)) hfirst.wellFormed
        (hs.trans_le hfirst.size_le) (ht.trans_le hfirst.size_le)).through ⟨hnew, hj.2⟩

end

theorem exists_path_of_full {e : Expr TermId} (he : e.Full) (hj : j < (ofExpr e).size) :
    ∃ u v, (ofExpr e).Path start u j ∧ (ofExpr e).Path j v accept := by
  have hspans : Spans (ofExpr e) start accept (fun j => initial.size ≤ j ∧ j < (ofExpr e).size) :=
    spans_addExpr he wellFormed_initial wellFormed_initial.start_lt wellFormed_initial.accept_lt
  rcases Nat.lt_or_ge j initial.size with hold | hnew
  · obtain ⟨w, hw⟩ := hspans.crossed
    have hsize : initial.size = 2 := rfl
    obtain rfl | rfl : j = 0 ∨ j = 1 := by omega
    · exact ⟨[], w, .nil start, hw⟩
    · exact ⟨w, [], hw, .nil accept⟩
  · exact hspans.through ⟨hnew, hj⟩

theorem simulate_nonempty_iff {e : Expr TermId} (he : e.Full) :
    ((ofExpr e).simulate w).isEmpty = false ↔ ∃ v, Matches e (w ++ v) := by
  have hn := wellFormed_ofExpr e
  simp only [← path_ofExpr_iff, path_append_iff]
  rw [← Bool.not_eq_true, StateSet.isEmpty_iff, not_forall]
  simp only [not_not, mem_simulate_iff hn]
  constructor
  · rintro ⟨j, hj⟩
    obtain ⟨_, v, _, hv⟩ := exists_path_of_full he (hn.path_lt hn.start_lt hj)
    exact ⟨v, j, hj, hv⟩
  · rintro ⟨v, j, hj, _⟩
    exact ⟨j, hj⟩

end CallGrammar.Nfa
