import CallGrammar.Proofs.Refusal

namespace CallGrammar

def Lengthens {α : Type} (admits : α → Prop) (xs ys : List α) : Prop := ∃ added, ys = xs ++ added ∧ ∀ x ∈ added, admits x

namespace Lengthens

variable {α : Type} {p q : α → Prop} {xs ys zs : List α} {x : α}

theorem refl (p : α → Prop) (xs : List α) : Lengthens p xs xs := ⟨[], by simp, by simp⟩

theorem concat (hx : p x) : Lengthens p xs (xs ++ [x]) := ⟨[x], rfl, by simpa using hx⟩

theorem trans (h : Lengthens p xs ys) (h' : Lengthens p ys zs) : Lengthens p xs zs := by
  obtain ⟨us, rfl, hus⟩ := h
  obtain ⟨vs, rfl, hvs⟩ := h'
  refine ⟨us ++ vs, List.append_assoc xs us vs, ?_⟩
  intro x hx
  exact (List.mem_append.mp hx).elim (hus x) (hvs x)

theorem mono (h : Lengthens p xs ys) (hpq : ∀ x, p x → q x) : Lengthens q xs ys := by
  obtain ⟨added, rfl, hadded⟩ := h
  exact ⟨added, rfl, fun x hx => hpq x (hadded x hx)⟩

theorem eq_of_forall_not (h : Lengthens p xs ys) (hnone : ∀ x, ¬ p x) : ys = xs := by
  obtain ⟨added, rfl, hadded⟩ := h
  rw [List.eq_nil_iff_forall_not_mem.mpr fun x hx => hnone x (hadded x hx), List.append_nil]

theorem mem_or (h : Lengthens p xs ys) (hx : x ∈ ys) : x ∈ xs ∨ p x := by
  obtain ⟨added, rfl, hadded⟩ := h
  exact (List.mem_append.mp hx).imp_right (hadded x)

theorem mem_and (h : Lengthens p xs ys) (hp : ∀ x ∈ ys, q x) : Lengthens (fun x => p x ∧ q x) xs ys := by
  obtain ⟨added, rfl, hadded⟩ := h
  exact ⟨added, rfl, fun x hx => ⟨hadded x hx, hp x (List.mem_append_right xs hx)⟩⟩

end Lengthens

namespace Nfa

variable {n m o : Nfa} {b c s t s' t' i j : StateId} {x : TermId}

def Between (b s t i j : StateId) : Prop := (i = s ∨ b ≤ i) ∧ (j = t ∨ b ≤ j)

structure Frame (b : StateId) (n m : Nfa) (s t : StateId) : Prop where
  size_le : n.size ≤ m.size
  isFinal_eq (i : StateId) : m.isFinal i = n.isFinal i
  edges (i : StateId) : Lengthens (fun e => Between b s t i e.2) (n.edges i) (m.edges i)
  epsilons (i : StateId) : Lengthens (Between b s t i) (n.epsilons i) (m.epsilons i)

namespace Frame

theorem refl (n : Nfa) : Frame b n n s t where
  size_le := Nat.le_refl _
  isFinal_eq _ := rfl
  edges _ := .refl _ _
  epsilons _ := .refl _ _

theorem trans (h : Frame b n m s t) (h' : Frame b m o s t) : Frame b n o s t where
  size_le := h.size_le.trans h'.size_le
  isFinal_eq i := (h'.isFinal_eq i).trans (h.isFinal_eq i)
  edges i := (h.edges i).trans (h'.edges i)
  epsilons i := (h.epsilons i).trans (h'.epsilons i)

theorem widen (h : Frame c n m s' t') (hbc : b ≤ c) (hs : s' = s ∨ b ≤ s') (ht : t' = t ∨ b ≤ t') :
    Frame b n m s t := by
  have hbetween : ∀ {i j}, Between c s' t' i j → Between b s t i j := by
    rintro i j ⟨hi, hj⟩
    constructor
    · rcases hi with rfl | hi
      · exact hs
      · exact .inr (hbc.trans hi)
    · rcases hj with rfl | hj
      · exact ht
      · exact .inr (hbc.trans hj)
  exact {
    size_le := h.size_le
    isFinal_eq := h.isFinal_eq
    edges := fun i => (h.edges i).mono fun _ => hbetween
    epsilons := fun i => (h.epsilons i).mono fun _ => hbetween }

theorem addState (n : Nfa) : Frame b n n.addState s t where
  size_le := by
    rw [size_addState]
    exact Nat.le_succ _
  isFinal_eq := isFinal_addState n
  edges i := by
    rw [edges_addState]
    exact .refl _ _
  epsilons i := by
    rw [epsilons_addState]
    exact .refl _ _

theorem addStates (n : Nfa) (k : Nat) : Frame b n (n.addStates k) s t := by
  induction k generalizing n with
  | zero => exact .refl n
  | succ k ih => exact (addState n).trans (ih n.addState)

theorem lengthens_modify {α : Type} {states : Array NfaState} {change : NfaState → NfaState} {view : NfaState → List α}
    {p : α → Prop} (h : ∀ state, i = s → Lengthens p (view state) (view (change state))) :
    Lengthens p ((states[i]?).elim [] view) (((states.modify s change)[i]?).elim [] view) := by
  rw [Array.getElem?_modify]
  split
  · rename_i hsi
    cases states[i]? with
    | none => exact .refl _ _
    | some state => exact h state hsi.symm
  · exact .refl _ _

theorem addEpsilon (n : Nfa) (s t : StateId) : Frame b n (n.addEpsilon s t) s t where
  size_le := Nat.le_of_eq (size_addEpsilon n s t).symm
  isFinal_eq := isFinal_addEpsilon n s t
  edges i := by
    rw [edges_addEpsilon]
    exact .refl _ _
  epsilons i := lengthens_modify fun state his => by
    rw [NfaState.addEpsilon]
    split
    · exact .refl _ _
    · exact .concat ⟨.inl his, .inl rfl⟩

theorem addEdge (n : Nfa) (s : StateId) (x : TermId) (t : StateId) : Frame b n (n.addEdge s x t) s t where
  size_le := Nat.le_of_eq (size_addEdge n s x t).symm
  isFinal_eq := isFinal_addEdge n s x t
  edges i := lengthens_modify fun state his => by
    rw [NfaState.addEdge]
    split
    · exact .refl _ _
    · exact .concat ⟨.inl his, .inl rfl⟩
  epsilons i := by
    rw [epsilons_addEdge]
    exact .refl _ _

theorem inside (h : Frame b n m s t) (h' : Frame c m o s' t') (hbc : b ≤ c) (hs : s' = s ∨ b ≤ s')
    (ht : t' = t ∨ b ≤ t') : Frame b n o s t :=
  h.trans (h'.widen hbc hs ht)

theorem addLoop {skippable : Bool} {body : Nfa → StateId → StateId → Nfa}
    (hbody : ∀ (n : Nfa) (s t : StateId), Frame n.size n (body n s t) s t) (n : Nfa) (s t : StateId) :
    Frame n.size n (n.addLoop s t skippable body) s t := by
  have hentered : Frame n.size n ((n.addStates 2).addEpsilon s n.size) s t :=
    (addStates n 2).inside (addEpsilon _ s n.size) (Nat.le_refl _) (.inl rfl) (.inr (Nat.le_refl _))
  have hinner := hentered.inside (hbody _ n.size (n.size + 1)) hentered.size_le (.inr (Nat.le_refl _)) (.inr (Nat.le_succ _))
  have hback := hinner.inside (addEpsilon _ (n.size + 1) n.size) (Nat.le_refl _) (.inr (Nat.le_succ _)) (.inr (Nat.le_refl _))
  have hleft := hback.inside (addEpsilon _ (n.size + 1) t) (Nat.le_refl _) (.inr (Nat.le_succ _)) (.inl rfl)
  cases skippable with
  | false => exact hleft
  | true =>
    exact hleft.inside (addEpsilon _ n.size (n.size + 1)) (Nat.le_refl _) (.inr (Nat.le_refl _)) (.inr (Nat.le_succ _))

end Frame

mutual

theorem frame_addExpr (e : Expr TermId) (n : Nfa) (s t : StateId) : Frame n.size n (addExpr n e s t) s t := by
  cases e with
  | term x =>
    rw [addExpr]
    exact .addEdge n s x t
  | seq items =>
    rw [addExpr]
    have hstates : n.size ≤ (n.addStates (items.length - 1)).size := (Frame.addStates n _ (b := 0) (s := s) (t := t)).size_le
    exact (Frame.addStates n _).trans (frame_addItems items _ s t (Nat.le_refl _) hstates)
  | alt branches =>
    rw [addExpr]
    exact frame_addBranches branches n s t (Nat.le_refl _)
  | star inner =>
    rw [addExpr]
    exact .addLoop (frame_addExpr inner) n s t
  | plus inner =>
    rw [addExpr]
    exact .addLoop (frame_addExpr inner) n s t
  | optional inner =>
    rw [addExpr]
    exact (frame_addExpr inner n s t).trans (.addEpsilon _ s t)

theorem frame_addItems (es : List (Expr TermId)) (n : Nfa) (s t : StateId) {b joint : StateId} (hjoint : b ≤ joint)
    (hn : b ≤ n.size) : Frame b n (addItems n es s joint t) s t := by
  match es with
  | [] =>
    rw [addItems]
    exact .addEpsilon n s t
  | [e] =>
    rw [addItems]
    exact (frame_addExpr e n s t).widen hn (.inl rfl) (.inl rfl)
  | e :: e' :: es =>
    rw [addItems]
    · have hfirst : Frame b n (addExpr n e s joint) s t :=
        (frame_addExpr e n s joint).widen hn (.inl rfl) (.inr hjoint)
      exact hfirst.inside (frame_addItems (e' :: es) _ joint t (hjoint.trans (Nat.le_succ _)) (hn.trans hfirst.size_le))
        (Nat.le_refl _) (.inr hjoint) (.inl rfl)
    · simp

theorem frame_addBranches (es : List (Expr TermId)) (n : Nfa) (s t : StateId) {b : StateId} (hn : b ≤ n.size) :
    Frame b n (addBranches n es s t) s t := by
  cases es with
  | nil =>
    rw [addBranches]
    exact .refl n
  | cons e es =>
    rw [addBranches]
    have hfirst : Frame b n (addExpr n e s t) s t := (frame_addExpr e n s t).widen hn (.inl rfl) (.inl rfl)
    exact hfirst.trans (frame_addBranches es _ s t (hn.trans hfirst.size_le))

end

def Lands (n m : Nfa) (s t j : StateId) : Prop := (j = t ∨ n.size ≤ j ∧ j < m.size) ∧ j ≠ s

structure Isolated (n m : Nfa) (s t : StateId) : Prop where
  size_le : n.size ≤ m.size
  isFinal_eq {i : StateId} : i < n.size → m.isFinal i = n.isFinal i
  isFinal_fresh {i : StateId} : n.size ≤ i → m.isFinal i = false
  edges_eq {i : StateId} : i < n.size → i ≠ s → m.edges i = n.edges i
  epsilons_eq {i : StateId} : i < n.size → i ≠ s → m.epsilons i = n.epsilons i
  edges (i : StateId) : Lengthens (fun e => Lands n m s t e.2) (n.edges i) (m.edges i)
  epsilons (i : StateId) : Lengthens (Lands n m s t) (n.epsilons i) (m.epsilons i)

theorem isFinal_of_size_le (h : n.size ≤ i) : n.isFinal i = false := by
  rw [isFinal, Array.getElem?_eq_none h]
  rfl

theorem not_between_of_ne (hi : i < b) (his : i ≠ s) (j : StateId) : ¬ Between b s t i j := by
  rintro ⟨hsource, _⟩
  exact hsource.elim his (Nat.not_le_of_lt hi)

theorem Between.lands (h : Between n.size s t i j) (hs : s < n.size) (hst : s ≠ t) (hj : j < m.size) : Lands n m s t j := by
  rcases h.2 with rfl | hfresh
  · exact ⟨.inl rfl, hst.symm⟩
  · exact ⟨.inr ⟨hfresh, hj⟩, (Nat.ne_of_lt (Nat.lt_of_lt_of_le hs hfresh)).symm⟩

theorem isolated_addExpr (hn : n.WellFormed) (e : Expr TermId) (hs : s < n.size) (ht : t < n.size) (hst : s ≠ t) :
    Isolated n (n.addExpr e s t) s t := by
  have hframe := frame_addExpr e n s t
  have hwell : (n.addExpr e s t).WellFormed := (fragment_addExpr e hn hs ht).wellFormed
  exact {
    size_le := hframe.size_le
    isFinal_eq := fun _ => hframe.isFinal_eq _
    isFinal_fresh := fun hi => (hframe.isFinal_eq _).trans (isFinal_of_size_le hi)
    edges_eq := fun hi his => (hframe.edges _).eq_of_forall_not fun e => not_between_of_ne hi his e.2
    epsilons_eq := fun hi his => (hframe.epsilons _).eq_of_forall_not (not_between_of_ne hi his)
    edges := fun i => ((hframe.edges i).mem_and fun _ => hwell.edge_lt).mono fun _ h => h.1.lands hs hst h.2
    epsilons := fun i => ((hframe.epsilons i).mem_and fun _ => hwell.epsilon_lt).mono fun _ h => h.1.lands hs hst h.2 }

structure Unentered (n : Nfa) (j : StateId) : Prop where
  epsilon (i : StateId) : j ∉ n.epsilons i
  edge (i : StateId) (x : TermId) : (x, j) ∉ n.edges i

theorem Unentered.eq_of_path {w : List TermId} (h : n.Unentered j) (hpath : n.Path i w j) : i = j := by
  induction hpath with
  | nil => rfl
  | epsilon hedge _ ih =>
    obtain rfl := ih h
    exact absurd hedge (h.epsilon _)
  | edge hedge _ ih =>
    obtain rfl := ih h
    exact absurd hedge (h.edge _ _)

theorem unentered_start_ofExpr (e : Expr TermId) : (ofExpr e).Unentered start := by
  have hframe : Frame initial.size initial (ofExpr e) start accept := frame_addExpr e initial start accept
  have hnot : ∀ i, ¬ Between initial.size start accept i start := by
    rintro i ⟨_, hj | hj⟩
    · exact absurd hj (by decide)
    · exact absurd hj (by decide)
  constructor
  · intro i hi
    rcases (hframe.epsilons i).mem_or hi with hi | hi
    · rw [epsilons_initial] at hi
      exact absurd hi List.not_mem_nil
    · exact hnot i hi
  · intro i x hi
    rcases (hframe.edges i).mem_or hi with hi | hi
    · rw [edges_initial] at hi
      exact absurd hi List.not_mem_nil
    · exact hnot i hi

theorem unleft_accept_ofExpr (e : Expr TermId) : (ofExpr e).epsilons accept = [] ∧ (ofExpr e).edges accept = [] := by
  have hisolated := isolated_addExpr wellFormed_initial e (s := start) (t := accept) (by decide) (by decide) (by decide)
  exact ⟨hisolated.epsilons_eq (by decide) (by decide), hisolated.edges_eq (by decide) (by decide)⟩

end Nfa

def Dfa.Unentered (d : Dfa) : Prop := ∀ i id, (id, start) ∉ d.edges i

theorem Subsets.Finished.unentered {n : Nfa} {r : Subsets} (hn : n.WellFormed) (h : Finished n r)
    (hstart : n.Unentered Nfa.start) : r.dfa.Unentered := by
  intro i id hedge
  rw [Dfa.edges] at hedge
  cases hstate : r.dfa.get? i with
  | none =>
    rw [hstate] at hedge
    exact absurd hedge List.not_mem_nil
  | some state =>
    rw [hstate] at hedge
    obtain ⟨core, _, hstands⟩ := h.stands hstate
    have hcore : n.advance core id = n.closure [Nfa.start] := Option.some.inj ((hstands.edges hedge).symm.trans h.start)
    have hmem : Nfa.start ∈ n.advance core id := hcore ▸ Nfa.start_mem_closure hn
    obtain ⟨k, _, k', hlast, hpath⟩ := (Nfa.mem_advance_iff hn).mp hmem
    obtain rfl := hstart.eq_of_path hpath
    exact hstart.edge k id hlast

theorem Grammar.unentered_of_compile {limits : Limits} {source : String} {g : Grammar}
    (h : Grammar.compile limits source = .ok g) : g.dfa.Unentered := by
  have hcompiled := Grammar.compiled_of_compile h
  have hstart : g.nfa.Unentered Nfa.start := hcompiled.nfa_eq ▸ Nfa.unentered_start_ofExpr _
  exact (Grammar.finished_of_compile h).unentered hcompiled.wellFormed hstart

namespace Chain

variable {Object Args Output : Type} {c : Chain Object Args Output}

theorem state_ne_start_of_mem_moves (h : c.dfa.Unentered) {t : Term} {j : StateId} (hmove : (t, j) ∈ c.moves) :
    j ≠ Dfa.start := by
  rintro rfl
  obtain ⟨id, hedge, _⟩ := mem_moves_iff.mp hmove
  exact h _ id hedge

theorem state_perform_ne_start (h : c.dfa.Unentered) {op : Operation Args}
    (hop : c.state ≠ Dfa.start ∨ c.answer op = .called (.ok ())) : (c.perform op).1.state ≠ Dfa.start := by
  rcases hop with hstate | hanswer
  · obtain ⟨object, s, hperform, hs | ⟨t, hmove⟩⟩ := c.exists_perform_eq op
    · rw [hperform, hs]
      exact hstate
    · rw [hperform]
      exact state_ne_start_of_mem_moves h hmove
  · cases op with
    | call name args =>
      rw [answer] at hanswer
      rw [perform]
      rcases call_cases c name args with ⟨e, _, hcall⟩ | ⟨t, j, message, object, _, _, hcall⟩ |
        ⟨t, j, object, hresolve, _, hcall⟩ <;> rw [hcall] at hanswer ⊢
      · cases hanswer
      · cases hanswer
      · exact state_ne_start_of_mem_moves h (mem_candidates (mem_candidates_of_resolve hresolve)).1
    | build => cases hanswer
    | watch => cases hanswer

theorem state_run_ne_start (h : c.dfa.Unentered) {ops : List (Operation Args)}
    (hops : c.state ≠ Dfa.start ∨ .called (.ok ()) ∈ c.answers ops) : (c.run ops).1.state ≠ Dfa.start := by
  induction ops generalizing c with
  | nil => exact hops.resolve_right List.not_mem_nil
  | cons op ops ih =>
    rw [answers, List.mem_cons] at hops
    rw [run]
    refine ih ((c.dfa_perform op).symm ▸ h) ?_
    rcases hops with hstate | hanswer | hrest
    · exact .inl (state_perform_ne_start h (.inl hstate))
    · exact .inl (state_perform_ne_start h (.inr hanswer.symm))
    · exact .inr hrest

end Chain

variable {Object Args Output : Type}

theorem fragments_isolated :
    (∀ (n : Nfa) (e : Expr TermId) (s t : StateId), n.Built → s < n.size → t < n.size → s ≠ t →
      n.Isolated (n.addExpr e s t) s t) ∧
    (∀ e : Expr TermId, (Nfa.ofExpr e).Unentered Nfa.start ∧
      (Nfa.ofExpr e).epsilons Nfa.accept = [] ∧ (Nfa.ofExpr e).edges Nfa.accept = []) ∧
    ∀ (limits : Limits) (source : String) (g : Grammar), Grammar.compile limits source = .ok g → g.dfa.Unentered ∧
      ∀ (actions : Actions Object Args Output) (object : Object) (ops : List (Operation Args)),
        .called (.ok ()) ∈ (g.chain actions object).answers ops →
          ((g.chain actions object).run ops).1.state ≠ Dfa.start := by
  refine ⟨fun n e s t hn hs ht hst => Nfa.isolated_addExpr hn.wellFormed e hs ht hst, fun e => ?_, fun limits source g h => ?_⟩
  · exact ⟨Nfa.unentered_start_ofExpr e, Nfa.unleft_accept_ofExpr e⟩
  · have hunentered := Grammar.unentered_of_compile h
    exact ⟨hunentered, fun _ _ _ hcalled => Chain.state_run_ne_start hunentered (.inr hcalled)⟩

def joined : Nfa := (((Nfa.initial.addState.addEdge 0 5 2).addEdge 0 7 2).addEdge 2 5 0).addEpsilon 2 1

theorem fragment_isolated_in_joined : joined.Built ∧
    joined.Isolated (joined.addExpr (.optional (.star (.seq [.term 5, .alt [.term 7, .term 5]]))) 0 2) 0 2 ∧
    ∃ g, Grammar.compile ⟨1, 8⟩ "(a|b:c)+ d?" = .ok g ∧ g.dfa.Unentered ∧
      ((g.chain recorder []).run visit).1.state ≠ Dfa.start := by
  have hjoined : joined.Built := by
    refine .addEpsilon (.addEdge (.addEdge (.addEdge (.addState .initial) ?_ ?_) ?_ ?_) ?_ ?_) ?_ ?_
    all_goals decide
  have hcall : (Grammar.compile ⟨1, 8⟩ "(a|b:c)+ d?").toOption.any
      (fun g => ((g.chain recorder []).call "b" ["1"]).result.toOption.isSome) = true := by decide +kernel
  obtain ⟨g, hg, hcall⟩ := exists_ok_of_any hcall
  have hok : ((g.chain recorder []).call "b" ["1"]).result = .ok () := by
    cases hresult : ((g.chain recorder []).call "b" ["1"]).result with
    | ok => rfl
    | error e =>
      rw [hresult] at hcall
      cases hcall
  have hcalled : .called (.ok ()) ∈ (g.chain recorder []).answers visit := by
    rw [visit, Chain.answers, Chain.answer, hok]
    exact List.mem_cons_self
  obtain ⟨hfragments, _, hgrammars⟩ := @fragments_isolated (List RecordedCall) (List String) (List RecordedCall)
  obtain ⟨hunentered, hrun⟩ := hgrammars ⟨1, 8⟩ _ g hg
  have hisolated := hfragments joined (.optional (.star (.seq [.term 5, .alt [.term 7, .term 5]]))) 0 2 hjoined
    (by decide) (by decide) (by decide)
  exact ⟨hjoined, hisolated, g, hg, hunentered, hrun recorder [] visit hcalled⟩

end CallGrammar
