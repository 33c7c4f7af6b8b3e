import CallGrammar.Nfa.Fragment
import CallGrammar.Proofs.Language
import CallGrammar.Proofs.Route

namespace CallGrammar.Nfa

open CallGrammar.Expr (Matches)

variable {n m o : Nfa} {s t p q i k b c : Nat} {w : List TermId} {L M : Words}

theorem links_addStates (n : Nfa) (k : Nat) : (n.addStates k).links = n.links := by
  induction k generalizing n with
  | zero => rfl
  | succ k ih =>
    rw [addStates, ih]
    funext i w j
    simp only [links, epsilons_addState, edges_addState]

theorem links_addEpsilon (hs : s < n.size) : (n.addEpsilon s t).links = n.links ⊔ via s nothing t := by
  funext i w j
  apply propext
  simp only [links, mem_epsilons_addEpsilon hs, edges_addEpsilon]
  constructor
  · rintro (⟨rfl, hj | ⟨rfl, rfl⟩⟩ | h)
    · exact .inl (.inl ⟨rfl, hj⟩)
    · exact .inr ⟨rfl, rfl, rfl⟩
    · exact .inl (.inr h)
  · rintro ((⟨rfl, hj⟩ | h) | ⟨rfl, rfl, rfl⟩)
    · exact .inl ⟨rfl, .inl hj⟩
    · exact .inr h
    · exact .inl ⟨rfl, .inr ⟨rfl, rfl⟩⟩

theorem links_addEdge {x : TermId} (hs : s < n.size) : (n.addEdge s x t).links = n.links ⊔ via s (· = [x]) t := by
  funext i w j
  apply propext
  simp only [links, mem_edges_addEdge hs, epsilons_addEdge]
  constructor
  · rintro (h | ⟨y, rfl, hj | ⟨rfl, rfl, rfl⟩⟩)
    · exact .inl (.inl h)
    · exact .inl (.inr ⟨y, rfl, hj⟩)
    · exact .inr ⟨rfl, rfl, rfl⟩
  · rintro ((h | ⟨y, rfl, hj⟩) | ⟨rfl, rfl, rfl⟩)
    · exact .inl h
    · exact .inr ⟨y, rfl, .inl hj⟩
    · exact .inr ⟨x, rfl, .inr ⟨rfl, rfl, rfl⟩⟩

theorem via_sup_via : via s L t ⊔ via s M t = via s (fun w => L w ∨ M w) t := by
  funext i w j
  apply propext
  constructor
  · rintro (⟨rfl, hw, rfl⟩ | ⟨rfl, hw, rfl⟩)
    · exact ⟨rfl, .inl hw, rfl⟩
    · exact ⟨rfl, .inr hw, rfl⟩
  · rintro ⟨rfl, hw | hw, rfl⟩
    · exact .inl ⟨rfl, hw, rfl⟩
    · exact .inr ⟨rfl, hw, rfl⟩

def round (skippable : Bool) (L : Words) : Words := fun w => L w ∨ skippable = true ∧ w = []

def closeLoop (n : Nfa) (entry exit target : StateId) (skippable : Bool) : Nfa :=
  let looped := (n.addEpsilon exit entry).addEpsilon exit target
  if skippable then looped.addEpsilon entry exit else looped

abbrev around (n : Nfa) (s : StateId) : Nfa := (n.addStates 2).addEpsilon s n.size

theorem size_around : (n.around s).size = n.size + 2 := by rw [around, size_addEpsilon, size_addStates]

theorem WellFormed.around (hn : n.WellFormed) (hs : s < n.size) : (n.around s).WellFormed := by
  have hentry : n.size < (n.addStates 2).size := by
    rw [size_addStates]
    exact Nat.lt_add_of_pos_right (by decide)
  exact (hn.addStates 2).addEpsilon (hs.trans hentry) hentry

theorem links_around (hs : s < n.size) : (n.around s).links = n.links ⊔ via s nothing n.size := by
  have hs' : s < (n.addStates 2).size := by
    rw [size_addStates]
    omega
  rw [around, links_addEpsilon hs', links_addStates]

theorem addLoop_eq_closeLoop (n : Nfa) (s t : StateId) (skippable : Bool) (body : Nfa → StateId → StateId → Nfa) :
    n.addLoop s t skippable body =
      closeLoop (body (n.around s) n.size (n.size + 1)) n.size (n.size + 1) t skippable := rfl

theorem size_closeLoop {skippable : Bool} : (n.closeLoop p q t skippable).size = n.size := by
  cases skippable <;> simp [closeLoop, size_addEpsilon]

theorem WellFormed.closeLoop {skippable : Bool} (hn : n.WellFormed) (hp : p < n.size) (hq : q < n.size)
    (ht : t < n.size) : (n.closeLoop p q t skippable).WellFormed := by
  have hback := hn.addEpsilon hq hp
  have hout : ((n.addEpsilon q p).addEpsilon q t).WellFormed :=
    hback.addEpsilon (by rwa [size_addEpsilon]) (by rwa [size_addEpsilon])
  cases skippable with
  | false => exact hout
  | true => exact hout.addEpsilon (by rwa [size_addEpsilon, size_addEpsilon]) (by rwa [size_addEpsilon, size_addEpsilon])

abbrev closing (p q t : StateId) (skippable : Bool) : Links :=
  via q nothing p ⊔ via q nothing t ⊔ via p (fun w => skippable = true ∧ w = []) q

theorem links_closeLoop {skippable : Bool} (hp : p < n.size) (hq : q < n.size) :
    (n.closeLoop p q t skippable).links = n.links ⊔ closing p q t skippable := by
  have hlooped : ((n.addEpsilon q p).addEpsilon q t).links = n.links ⊔ (via q nothing p ⊔ via q nothing t) := by
    rw [links_addEpsilon (by rwa [size_addEpsilon]), links_addEpsilon hq, sup_assoc]
  rw [closing, ← sup_assoc, ← hlooped]
  cases skippable with
  | false =>
    have hnone : via p (fun w => false = true ∧ w = []) q = ⊥ := by
      funext i w k
      simp [via]
    rw [hnone, sup_bot_eq]
    rfl
  | true =>
    have hskip : (fun w : List TermId => true = true ∧ w = []) = nothing := by
      funext w
      simp [nothing]
    rw [hskip, ← links_addEpsilon (by rwa [size_addEpsilon, size_addEpsilon])]
    rfl

theorem via_sup_via_round {skippable : Bool} :
    via p L q ⊔ via p (fun w => skippable = true ∧ w = []) q = via p (round skippable L) q := via_sup_via

structure Fragment (b : Nat) (n m : Nfa) (s : Nat) (L : Words) (t : Nat) : Prop where
  wellFormed : m.WellFormed
  size_le : n.size ≤ m.size
  keeps : n.links ≤ m.links
  adds {i k : Nat} {w : List TermId} : m.links i w k → n.links i w k ∨ (i = s ∨ b ≤ i) ∧ (k = t ∨ b ≤ k)
  same : SameBelow b m.links (n.links ⊔ via s L t)

namespace Fragment

theorem of_links_eq (hm : m.WellFormed) (hsize : n.size ≤ m.size) (h : m.links = n.links ⊔ via s L t) :
    Fragment b n m s L t where
  wellFormed := hm
  size_le := hsize
  keeps := h ▸ le_sup_left
  adds hl := by
    rw [h] at hl
    rcases hl with hl | ⟨rfl, _, rfl⟩
    · exact .inl hl
    · exact .inr ⟨.inl rfl, .inl rfl⟩
  same := .of_eq h

theorem mono (h : Fragment c n m s L t) (hbc : b ≤ c) : Fragment b n m s L t where
  wellFormed := h.wellFormed
  size_le := h.size_le
  keeps := h.keeps
  adds hl := (h.adds hl).imp_right fun ⟨hi, hk⟩ => ⟨hi.imp_right hbc.trans, hk.imp_right hbc.trans⟩
  same := h.same.mono hbc

theorem congr (h : Fragment b n m s L t) (hLM : ∀ w, L w ↔ M w) : Fragment b n m s M t := by
  obtain rfl : L = M := funext fun w => propext (hLM w)
  exact h

theorem epsilon (hn : n.WellFormed) (hs : s < n.size) (ht : t < n.size) :
    Fragment b n (n.addEpsilon s t) s nothing t :=
  of_links_eq (hn.addEpsilon hs ht) (Nat.le_of_eq (size_addEpsilon n s t).symm) (links_addEpsilon hs)

theorem edge {x : TermId} (hn : n.WellFormed) (hs : s < n.size) (ht : t < n.size) :
    Fragment b n (n.addEdge s x t) s (· = [x]) t :=
  of_links_eq (hn.addEdge hs ht) (Nat.le_of_eq (size_addEdge n s x t).symm) (links_addEdge hs)

theorem refl (hn : n.WellFormed) : Fragment b n n s (fun _ => False) t := by
  apply of_links_eq hn (Nat.le_refl _)
  funext i w k
  simp [via]

theorem alt (h : Fragment b n m s L t) (h' : Fragment b m o s M t) (hs : s < b) (ht : t < b) :
    Fragment b n o s (fun w => L w ∨ M w) t where
  wellFormed := h'.wellFormed
  size_le := h.size_le.trans h'.size_le
  keeps := h.keeps.trans h'.keeps
  adds hl := (h'.adds hl).elim h.adds .inr
  same := by
    apply h'.same.trans
    apply (h.same.sup (below_via hs ht)).trans
    apply SameBelow.of_eq
    rw [sup_assoc, via_sup_via]

theorem join (h : Fragment (b + 1) n m s L b) (h' : Fragment (b + 1) m o b M t) (hb : Avoids n.links b) (hs : s < b)
    (ht : t < b) : Fragment b n o s (following L M) t where
  wellFormed := h'.wellFormed
  size_le := h.size_le.trans h'.size_le
  keeps := h.keeps.trans h'.keeps
  adds hl := by
    rcases h'.adds hl with hl | ⟨hi, hk⟩
    · refine (h.adds hl).imp_right fun ⟨hi, hk⟩ => ⟨hi.imp_right Nat.le_of_succ_le, .inr ?_⟩
      exact hk.elim (fun h => h ▸ Nat.le_refl _) Nat.le_of_succ_le
    · exact .inr ⟨.inr (hi.elim (fun h => h ▸ Nat.le_refl _) Nat.le_of_succ_le), hk.imp_right Nat.le_of_succ_le⟩
  same := by
    have hlast : Below (b + 1) (via b M t) := below_via (Nat.lt_succ_self b) (Nat.lt_succ_of_lt ht)
    have hboth := h'.same.trans (h.same.sup hlast)
    exact (hboth.mono (Nat.le_succ b)).trans (sameBelow_joint hb (Nat.le_refl b) hs ht)

theorem loop_adds {skippable : Bool} (hs : s < n.size) (hbody : Fragment (n.size + 2) (n.around s) m n.size L (n.size + 1))
    (h : (m.links ⊔ closing n.size (n.size + 1) t skippable) i w k) :
    n.links i w k ∨ (i = s ∨ n.size ≤ i) ∧ (k = t ∨ n.size ≤ k) := by
  rcases h with h | ((⟨rfl, _, rfl⟩ | ⟨rfl, _, rfl⟩) | ⟨rfl, _, rfl⟩)
  · rcases hbody.adds h with h | ⟨hi, hk⟩
    · rw [links_around hs] at h
      rcases h with h | ⟨rfl, _, rfl⟩
      · exact .inl h
      · exact .inr ⟨.inl rfl, .inr (Nat.le_refl _)⟩
    · exact .inr ⟨.inr (by omega), .inr (by omega)⟩
  · exact .inr ⟨.inr (Nat.le_succ _), .inr (Nat.le_refl _)⟩
  · exact .inr ⟨.inr (Nat.le_succ _), .inl rfl⟩
  · exact .inr ⟨.inr (Nat.le_refl _), .inr (Nat.le_succ _)⟩

theorem loop_same {skippable : Bool} (hn : n.WellFormed) (hs : s < n.size) (ht : t < n.size)
    (hbody : Fragment (n.size + 2) (n.around s) m n.size L (n.size + 1)) :
    SameBelow n.size (m.links ⊔ closing n.size (n.size + 1) t skippable)
      (n.links ⊔ via s (Repeats (round skippable L)) t) := by
  have hp : n.size < n.size + 2 := by omega
  have hq : n.size + 1 < n.size + 2 := by omega
  have htarget : t < n.size + 2 := by omega
  have hclosing : Below (n.size + 2) (closing n.size (n.size + 1) t skippable) :=
    ((below_via hq hp).sup (below_via hq htarget)).sup (below_via hp hq)
  have houtside := (hbody.same.sup hclosing).mono (Nat.le_add_right n.size 2)
  rw [links_around hs] at houtside
  refine houtside.trans (.trans (.of_eq ?_) (sameBelow_loop (hn.below.avoids (Nat.le_refl _))
    (hn.below.avoids (Nat.le_succ _)) (Nat.le_refl _) (Nat.le_succ _) (Nat.ne_of_lt (Nat.lt_succ_self _)) hs ht))
  rw [Nfa.loop, ← via_sup_via_round, closing]
  ac_rfl

theorem loop {skippable : Bool} (hn : n.WellFormed) (hs : s < n.size) (ht : t < n.size)
    (hbody : Fragment (n.size + 2) (n.around s) m n.size L (n.size + 1)) :
    Fragment n.size n (closeLoop m n.size (n.size + 1) t skippable) s (Repeats (round skippable L)) t := by
  have hsize := hbody.size_le
  rw [size_around] at hsize
  have hlinks : (m.closeLoop n.size (n.size + 1) t skippable).links =
      m.links ⊔ closing n.size (n.size + 1) t skippable := links_closeLoop (by omega) (by omega)
  refine ⟨hbody.wellFormed.closeLoop (by omega) (by omega) (by omega), ?_, ?_, ?_, ?_⟩
  · rw [size_closeLoop]
    omega
  · rw [hlinks]
    refine le_trans ?_ (hbody.keeps.trans le_sup_left)
    rw [links_around hs]
    exact le_sup_left
  · intro i k w hl
    rw [hlinks] at hl
    exact loop_adds hs hbody hl
  · rw [hlinks]
    exact loop_same hn hs ht hbody

theorem addLoop {skippable : Bool} {body : Nfa → StateId → StateId → Nfa} (hn : n.WellFormed) (hs : s < n.size)
    (ht : t < n.size) (hbody : ∀ {n : Nfa} {s t : Nat}, n.WellFormed → s < n.size → t < n.size →
      Fragment n.size n (body n s t) s L t) :
    Fragment n.size n (n.addLoop s t skippable body) s (Repeats (round skippable L)) t := by
  have hsize : (n.around s).size = n.size + 2 := size_around
  have hinner := hbody (hn.around hs) (s := n.size) (t := n.size + 1) (by omega) (by omega)
  rw [addLoop_eq_closeLoop]
  exact loop hn hs ht (hsize ▸ hinner)

theorem of_addStates {k : Nat} (h : Fragment b (n.addStates k) m s L t) : Fragment b n m s L t where
  wellFormed := h.wellFormed
  size_le := by
    refine Nat.le_trans ?_ h.size_le
    rw [size_addStates]
    exact Nat.le_add_right _ _
  keeps := links_addStates n k ▸ h.keeps
  adds := links_addStates n k ▸ h.adds
  same := links_addStates n k ▸ h.same

theorem avoids (h : Fragment n.size n m s L t) (hn : Avoids n.links i) (hi : i < n.size) (his : i ≠ s) (hit : i ≠ t) :
    Avoids m.links i := by
  intro j w k hl
  rcases h.adds hl with hl | ⟨hj, hk⟩
  · exact hn _ _ _ hl
  · constructor
    · rintro rfl
      exact hj.elim his (Nat.not_le_of_lt hi)
    · rintro rfl
      exact hk.elim hit (Nat.not_le_of_lt hi)

theorem avoids_joints (h : Fragment n.size n m s L b) (hs : s < b) (hc : c ≤ n.size)
    (hjoints : ∀ j, b ≤ j → j < c → Avoids n.links j) {j : Nat} (hj : b + 1 ≤ j) (hjc : j < c) : Avoids m.links j :=
  h.avoids (hjoints j (Nat.le_of_succ_le hj) hjc) (hjc.trans_le hc) (by omega) (by omega)

end Fragment

section expressions

variable {e : Expr TermId} {es : List (Expr TermId)}

theorem matches_star_of_matches_plus (h : Matches (.plus e) w) : Matches (.star e) w := by
  cases h with
  | plus hu hv => exact .starCons hu hv

theorem matches_star_append {u v : List TermId} (h : Matches (.star e) u) (h' : Matches (.star e) v) :
    Matches (.star e) (u ++ v) := by
  generalize he : Expr.star e = f at h
  induction h with
  | starNil => exact he ▸ h'
  | starCons hu _ _ ih =>
    obtain rfl := (Expr.star.injEq _ _).mp he
    rw [List.append_assoc]
    exact .starCons hu (ih rfl)
  | _ => simp at he

theorem matches_star_of_repeats (h : Repeats (round true (Matches e)) w) : Matches (.star e) w := by
  have hround : ∀ {u}, round true (Matches e) u → Matches (.star e) u := by
    rintro u (hu | ⟨_, rfl⟩)
    · simpa using Matches.starCons hu .starNil
    · exact .starNil
  induction h with
  | last hu => exact hround hu
  | more hu _ ih => exact matches_star_append (hround hu) ih

theorem repeats_of_matches_star (h : Matches (.star e) w) : Repeats (round true (Matches e)) w := by
  generalize he : Expr.star e = f at h
  induction h with
  | starNil => exact .last (.inr ⟨rfl, rfl⟩)
  | starCons hu _ _ ih =>
    obtain rfl := (Expr.star.injEq _ _).mp he
    exact .more (.inl hu) (ih rfl)
  | _ => simp at he

theorem repeats_round_true_iff : Repeats (round true (Matches e)) w ↔ Matches (.star e) w :=
  ⟨matches_star_of_repeats, repeats_of_matches_star⟩

theorem matches_plus_of_repeats (h : Repeats (round false (Matches e)) w) : Matches (.plus e) w := by
  have hround : ∀ {u}, round false (Matches e) u → Matches e u := by
    rintro u (hu | ⟨h, _⟩)
    · exact hu
    · simp at h
  induction h with
  | last hu => simpa using Matches.plus (hround hu) .starNil
  | more hu _ ih => exact .plus (hround hu) (matches_star_of_matches_plus ih)

theorem repeats_of_matches_plus (h : Matches (.plus e) w) : Repeats (round false (Matches e)) w := by
  obtain ⟨u, v, rfl, hu, hv⟩ : ∃ u v, w = u ++ v ∧ Matches e u ∧ Matches (.star e) v := by
    cases h with
    | plus hu hv => exact ⟨_, _, rfl, hu, hv⟩
  generalize he : Expr.star e = f at hv
  clear h
  induction hv generalizing u with
  | starNil =>
    rw [List.append_nil]
    exact .last (.inl hu)
  | starCons hv _ _ ih =>
    obtain rfl := (Expr.star.injEq _ _).mp he
    exact .more (.inl hu) (ih _ hv rfl)
  | _ => simp at he

theorem repeats_round_false_iff : Repeats (round false (Matches e)) w ↔ Matches (.plus e) w :=
  ⟨matches_plus_of_repeats, repeats_of_matches_plus⟩

theorem matches_seq_cons_iff_following : following (Matches e) (Matches (.seq es)) w ↔ Matches (.seq (e :: es)) w :=
  Expr.matches_seq_cons_iff.symm

theorem matches_optional_iff_or : Matches e w ∨ nothing w ↔ Matches (.optional e) w := by
  rw [Expr.matches_optional_iff, or_comm]
  rfl

mutual

theorem fragment_addExpr (e : Expr TermId) {n : Nfa} {s t : Nat} (hn : n.WellFormed) (hs : s < n.size) (ht : t < n.size) :
    Fragment n.size n (addExpr n e s t) s (Matches e) t := by
  cases e with
  | term x =>
    rw [addExpr]
    exact (Fragment.edge hn hs ht).congr fun w => Expr.matches_term_iff.symm
  | seq items =>
    rw [addExpr]
    have hstates := size_addStates n (items.length - 1)
    refine (fragment_addItems items (hn.addStates _) hs ht (Nat.le_of_eq hstates.symm) ?_).of_addStates
    intro j hj _
    rw [links_addStates]
    exact hn.below.avoids hj
  | alt branches =>
    rw [addExpr]
    exact fragment_addBranches branches hn hs ht
  | star inner =>
    rw [addExpr]
    exact (Fragment.addLoop hn hs ht (fragment_addExpr inner)).congr fun w => repeats_round_true_iff
  | plus inner =>
    rw [addExpr]
    exact (Fragment.addLoop hn hs ht (fragment_addExpr inner)).congr fun w => repeats_round_false_iff
  | optional inner =>
    rw [addExpr]
    have hinner := fragment_addExpr inner hn hs ht
    have hskip := Fragment.epsilon (b := n.size) hinner.wellFormed (hs.trans_le hinner.size_le) (ht.trans_le hinner.size_le)
    exact (hinner.alt hskip hs ht).congr fun w => matches_optional_iff_or

theorem fragment_addItems (es : List (Expr TermId)) {n : Nfa} {s b t : Nat} (hn : n.WellFormed) (hs : s < b)
    (ht : t < b) (hb : b + (es.length - 1) ≤ n.size)
    (hjoints : ∀ j, b ≤ j → j < b + (es.length - 1) → Avoids n.links j) :
    Fragment b n (addItems n es s b t) s (Matches (.seq es)) t := by
  match es with
  | [] =>
    rw [addItems]
    exact (Fragment.epsilon hn (by omega) (by omega)).congr fun w => Expr.matches_seq_nil_iff.symm
  | [e] =>
    rw [addItems]
    have hbn : b ≤ n.size := hb
    exact ((fragment_addExpr e hn (by omega) (by omega)).mono hbn).congr fun w => Expr.matches_seq_singleton_iff.symm
  | e :: e' :: es =>
    rw [addItems]
    · simp only [List.length_cons, Nat.add_sub_cancel] at hb hjoints
      have hfirst := fragment_addExpr e hn (s := s) (t := b) (by omega) (by omega)
      have hsize := hfirst.size_le
      have hrest : Fragment (b + 1) (addExpr n e s b) (addItems (addExpr n e s b) (e' :: es) b (b + 1) t) b
          (Matches (.seq (e' :: es))) t := by
        apply fragment_addItems (e' :: es) hfirst.wellFormed (by omega) (by omega)
        · simp only [List.length_cons, Nat.add_sub_cancel]
          omega
        · intro j hj hlast
          simp only [List.length_cons, Nat.add_sub_cancel] at hlast
          exact hfirst.avoids_joints hs hb hjoints hj (by omega)
      have hboth := (hfirst.mono (by omega)).join hrest (hjoints b (Nat.le_refl b) (by omega)) hs ht
      exact hboth.congr fun w => matches_seq_cons_iff_following
    · simp

theorem fragment_addBranches (es : List (Expr TermId)) {n : Nfa} {s t : Nat} (hn : n.WellFormed) (hs : s < n.size)
    (ht : t < n.size) : Fragment n.size n (addBranches n es s t) s (Matches (.alt es)) t := by
  cases es with
  | nil =>
    rw [addBranches]
    exact (Fragment.refl hn).congr fun w => (iff_false_intro (Expr.not_matches_alt_nil w)).symm
  | cons e es =>
    rw [addBranches]
    have hfirst := fragment_addExpr e hn hs ht
    have hrest := fragment_addBranches es hfirst.wellFormed (hs.trans_le hfirst.size_le) (ht.trans_le hfirst.size_le)
    exact (hfirst.alt (hrest.mono hfirst.size_le) hs ht).congr fun w => Expr.matches_alt_cons_iff.symm

end

theorem links_initial : initial.links = ⊥ := by
  funext i w j
  simp [links, epsilons_initial, edges_initial]

theorem fragment_ofExpr (e : Expr TermId) : Fragment initial.size initial (ofExpr e) start (Matches e) accept :=
  fragment_addExpr e wellFormed_initial wellFormed_initial.start_lt wellFormed_initial.accept_lt

theorem wellFormed_ofExpr (e : Expr TermId) : (ofExpr e).WellFormed := (fragment_ofExpr e).wellFormed

theorem route_via_iff (hst : s ≠ t) : Route (via s L t) s w t ↔ L w := by
  constructor
  · intro h
    cases h with
    | nil => exact absurd rfl hst
    | cons hl hrest =>
      obtain ⟨_, hu, rfl⟩ := hl
      cases hrest with
      | nil => rwa [List.append_nil]
      | cons hl _ => exact absurd hl.1.symm hst
  · intro h
    exact .single ⟨rfl, h, rfl⟩

theorem path_ofExpr_iff : (ofExpr e).Path start w accept ↔ Matches e w := by
  have hroute := (fragment_ofExpr e).same.route wellFormed_initial.start_lt wellFormed_initial.accept_lt (w := w)
  rw [path_iff_route, hroute, links_initial, bot_sup_eq]
  exact route_via_iff (by decide)

theorem accepts_ofExpr_iff_matches (e : Expr TermId) (trace : List TermId) :
    (ofExpr e).accepts trace = true ↔ Matches e trace := by
  rw [accepts_iff_path (wellFormed_ofExpr e), path_ofExpr_iff]

end expressions

end CallGrammar.Nfa
