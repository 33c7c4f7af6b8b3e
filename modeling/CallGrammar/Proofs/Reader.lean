import CallGrammar.Proofs.Derivation

namespace CallGrammar.Parser.State

variable {limit : Option Nat} {s s' : State} {t : Token} {ts us : List Token} {e : ParseError}

def Between (s : State) : Prop := ∀ name, s.pending ≠ .colon name

theorem settle_eq_self (h : s.pending = .nothing) : s.settle = s := by
  simp [settle, settleName, settleAtom, h]

theorem pending_settleName (h : s.Between) :
    s.settleName.pending = .nothing ∨ ∃ e, s.settleName.pending = .atom e := by
  rw [settleName]
  cases hpending : s.pending with
  | nothing => exact .inl hpending
  | name name => exact .inr ⟨_, rfl⟩
  | colon name => exact absurd hpending (h name)
  | atom e => exact .inr ⟨e, hpending⟩

theorem pending_settle (h : s.Between) : s.settle.pending = .nothing := by
  unfold settle settleAtom
  rcases pending_settleName h with hpending | ⟨e, hpending⟩ <;> rw [hpending]
  exact hpending

def boundaries : List TokenKind := [.ident, .parenOpen, .pipe, .parenClose]

theorem quantify?_of_mem_boundaries {kind : TokenKind} (hkind : kind ∈ boundaries) : s.quantify? kind = none := by
  rw [quantify?]
  split
  · rename_i e _
    have hnone : quantifier? kind e = none := by
      cases kind with
      | ident | parenOpen | pipe | parenClose => rfl
      | star | plus | question | colon | whitespace | garbage => simp [boundaries] at hkind
    rw [hnone]
    rfl
  · rfl

theorem step_of_between (h : s.Between) (ht : t.kind ≠ .colon) : s.step limit t =
    match s.settleName.quantify? t.kind with
    | some s => .ok s
    | none => s.settle.begin limit t := by
  rw [step]
  split
  · rename_i hcolon
    exact absurd hcolon ht
  · rename_i name hpending _
    exact absurd hpending (h name)
  · rename_i name hpending _
    exact absurd hpending (h name)
  · rfl

theorem step_eq_begin (h : s.Between) (ht : t.kind ∈ boundaries) : s.step limit t = s.settle.begin limit t := by
  have hcolon : t.kind ≠ .colon := by
    intro hkind
    simp [hkind, boundaries] at ht
  rw [step_of_between h hcolon, quantify?_of_mem_boundaries ht]

theorem step_eq_quantified (h : s.Between) {e : Expr Occurrence} (hatom : s.settleName.pending = .atom e) (q : Quantifier)
    (ht : t.kind = q.kind) : s.step limit t =
      .ok { s.settleName with current := s.settleName.current.push (q.wrap e), pending := .nothing } := by
  have hcolon : t.kind ≠ .colon := by
    rw [ht]
    cases q <;> simp [Quantifier.kind]
  have hquantify : s.settleName.quantify? t.kind =
      some { s.settleName with current := s.settleName.current.push (q.wrap e), pending := .nothing } := by
    rw [ht, quantify?, hatom]
    cases q <;> rfl
  rw [step_of_between h hcolon, hquantify]

theorem run_cons_of_step (h : s.step limit t = .ok s') (ts : List Token) : run limit s (t :: ts) = run limit s' ts := by
  rw [run, h]

theorem run_append_of_run (h : run limit s ts = .ok s') (us : List Token) :
    run limit s (ts ++ us) = run limit s' us := by
  induction ts generalizing s with
  | nil =>
    obtain rfl := Except.ok.inj h
    rfl
  | cons t ts ih =>
    rw [run] at h
    split at h
    · rename_i middle hstep
      rw [List.cons_append, run_cons_of_step hstep]
      exact ih h
    · cases h

theorem run_append_of_error (h : run limit s ts = .error e) (us : List Token) : run limit s (ts ++ us) = .error e := by
  induction ts generalizing s with
  | nil => cases h
  | cons t ts ih =>
    rw [run] at h
    split at h
    · rename_i middle hstep
      rw [List.cons_append, run_cons_of_step hstep]
      exact ih h
    · rename_i hstep
      rw [List.cons_append, run, hstep]
      exact h

def entered (s : State) (opened : Span) : State := { s with outer := (opened, s.current) :: s.outer, current := .empty }

def branched (s : State) : State := { s with current := s.current.split }

theorem step_ident (h : s.Between) (ht : t.kind = .ident) :
    s.step limit t = .ok { s.settle with pending := .name t } := by
  rw [step_eq_begin h (by simp [boundaries, ht]), begin, ht]

theorem step_open (h : s.Between) (ht : t.kind = .parenOpen) : s.step none t = .ok (s.settle.entered t.span) := by
  rw [step_eq_begin h (by simp [boundaries, ht]), begin, ht]
  rfl

theorem step_pipe (h : s.Between) (ht : t.kind = .pipe) (hitems : s.settle.current.items ≠ []) :
    s.step limit t = .ok s.settle.branched := by
  rw [step_eq_begin h (by simp [boundaries, ht]), begin, ht]
  simp [hitems, branched]

theorem step_close (h : s.Between) (ht : t.kind = .parenClose) (hitems : s.settle.current.items ≠ []) {opened : Span}
    {enclosing : Branches} {outer : List (Span × Branches)} (houter : s.settle.outer = (opened, enclosing) :: outer) :
    s.step limit t =
      .ok { s.settle with outer, current := enclosing, pending := .atom s.settle.current.expr } := by
  rw [step_eq_begin h (by simp [boundaries, ht]), begin, ht]
  simp [hitems, houter]

theorem step_cases (h : s.step limit t = .ok s') :
    (∃ name, s.pending = .name name ∧ t.kind = .colon ∧ s' = { s with pending := .colon name }) ∨
    (∃ name, s.pending = .colon name ∧ t.kind = .ident ∧ s' = s.occur ⟨name.text, t.text⟩ (name.span.cover t.span)) ∨
    (s.Between ∧ s.settleName.quantify? t.kind = some s') ∨
    (s.Between ∧ s.settle.begin limit t = .ok s') := by
  rw [step] at h
  split at h
  · rename_i name hpending hkind
    exact .inl ⟨name, hpending, hkind, (Except.ok.inj h).symm⟩
  · rename_i name hpending hkind
    exact .inr (.inl ⟨name, hpending, hkind, (Except.ok.inj h).symm⟩)
  · cases h
  · rename_i hcolon _ _
    simp only at h
    have hbetween : s.Between := fun name hname => hcolon name hname
    split at h
    · rename_i hquantify
      obtain rfl := Except.ok.inj h
      exact .inr (.inr (.inl ⟨hbetween, hquantify⟩))
    · exact .inr (.inr (.inr ⟨hbetween, h⟩))

theorem quantify?_eq_some {kind : TokenKind} (h : s.quantify? kind = some s') : ∃ (q : Quantifier) (e : Expr Occurrence),
    kind = q.kind ∧ s.pending = .atom e ∧ s' = { s with current := s.current.push (q.wrap e), pending := .nothing } := by
  rw [quantify?] at h
  split at h
  · rename_i e hpending
    obtain ⟨item, hitem, rfl⟩ := Option.map_eq_some_iff.mp h
    cases kind with
    | star => exact ⟨.star, e, rfl, hpending, by rw [← Option.some.inj hitem]; rfl⟩
    | plus => exact ⟨.plus, e, rfl, hpending, by rw [← Option.some.inj hitem]; rfl⟩
    | question => exact ⟨.optional, e, rfl, hpending, by rw [← Option.some.inj hitem]; rfl⟩
    | parenOpen | parenClose | colon | pipe | ident | whitespace | garbage => cases hitem
  · cases h

theorem begin_cases (h : s.begin limit t = .ok s') :
    (t.kind = .ident ∧ s' = { s with pending := .name t }) ∨
    (t.kind = .parenOpen ∧ limit.any (· ≤ s.outer.length) = false ∧ s' = s.entered t.span) ∨
    (t.kind = .pipe ∧ s.current.items ≠ [] ∧ s' = s.branched) ∨
    (t.kind = .parenClose ∧ s.current.items ≠ [] ∧ ∃ opened enclosing outer, s.outer = (opened, enclosing) :: outer ∧
      s' = { s with outer, current := enclosing, pending := .atom s.current.expr }) := by
  rw [begin] at h
  split at h
  · rename_i hkind
    exact .inl ⟨hkind, (Except.ok.inj h).symm⟩
  · rename_i hkind
    split at h
    · cases h
    · rename_i hlimit
      exact .inr (.inl ⟨hkind, by simpa using hlimit, (Except.ok.inj h).symm⟩)
  · rename_i hkind
    split at h
    · cases h
    · rename_i hitems
      exact .inr (.inr (.inl ⟨hkind, by simpa using hitems, (Except.ok.inj h).symm⟩))
  · rename_i hkind
    split at h
    · cases h
    · rename_i hitems
      split at h
      · cases h
      · rename_i opened enclosing outer houter
        exact .inr (.inr (.inr ⟨hkind, by simpa using hitems, opened, enclosing, outer, houter, (Except.ok.inj h).symm⟩))
  · cases h

theorem mem_boundaries_of_begin (h : s.begin limit t = .ok s') : t.kind ∈ boundaries := by
  rcases begin_cases h with ⟨hkind, _⟩ | ⟨hkind, _⟩ | ⟨hkind, _⟩ | ⟨hkind, _⟩ <;> simp [boundaries, hkind]

theorem pending_of_step (h : s.step limit t = .ok s') :
    (∃ name, s.pending = .name name ∧ t.kind = .colon ∧ s'.pending = .colon name) ∨
    t.kind ≠ .colon ∧ (s'.pending = .nothing ∨ s'.pending = .name t ∨ ∃ e, s'.pending = .atom e) := by
  rcases step_cases h with ⟨name, hname, hkind, rfl⟩ | ⟨name, _, hkind, rfl⟩ | ⟨_, hquantify⟩ | ⟨hbetween, hbegin⟩
  · exact .inl ⟨name, hname, hkind, rfl⟩
  · exact .inr ⟨by simp [hkind], .inr (.inr ⟨_, rfl⟩)⟩
  · obtain ⟨q, e, hkind, _, rfl⟩ := quantify?_eq_some hquantify
    refine .inr ⟨?_, .inl rfl⟩
    rw [hkind]
    cases q <;> simp [Quantifier.kind]
  · have hpending := pending_settle hbetween
    rcases begin_cases hbegin with ⟨hkind, rfl⟩ | ⟨hkind, _, rfl⟩ | ⟨hkind, _, rfl⟩ | ⟨hkind, _, _, _, _, _, rfl⟩
    · exact .inr ⟨by simp [hkind], .inr (.inl rfl)⟩
    · exact .inr ⟨by simp [hkind], .inl hpending⟩
    · exact .inr ⟨by simp [hkind], .inl hpending⟩
    · exact .inr ⟨by simp [hkind], .inr (.inr ⟨_, rfl⟩)⟩

theorem begin_none (h : s.begin limit t = .ok s') : s.begin none t = .ok s' := by
  rcases begin_cases h with ⟨hkind, rfl⟩ | ⟨hkind, _, rfl⟩ | ⟨hkind, hitems, rfl⟩ |
    ⟨hkind, hitems, opened, enclosing, outer, houter, rfl⟩ <;> rw [begin, hkind]
  · rfl
  · simp [hitems, branched]
  · simp [hitems, houter]

theorem step_none (h : s.step limit t = .ok s') : s.step none t = .ok s' := by
  rcases step_cases h with ⟨name, hpending, hkind, rfl⟩ | ⟨name, hpending, hkind, rfl⟩ | ⟨hbetween, hquantify⟩ |
    ⟨hbetween, hbegin⟩
  · simp [step, hpending, hkind]
  · simp [step, hpending, hkind]
  · obtain ⟨q, e, hkind, hatom, rfl⟩ := quantify?_eq_some hquantify
    exact step_eq_quantified hbetween hatom q hkind
  · rw [step_eq_begin hbetween (mem_boundaries_of_begin hbegin)]
    exact begin_none hbegin

theorem run_none (h : s.run limit ts = .ok s') : s.run none ts = .ok s' := by
  induction ts generalizing s with
  | nil => exact h
  | cons t ts ih =>
    rw [run] at h
    split at h
    · rename_i middle hstep
      rw [run_cons_of_step (step_none hstep)]
      exact ih h
    · cases h

theorem malformed_of_begin (h : s.begin none t = .error e) : ∃ position cause, e = .malformed position cause := by
  rw [begin] at h
  split at h
  · cases h
  · cases h
  · split at h
    · exact ⟨_, _, (Except.error.inj h).symm⟩
    · cases h
  · split at h
    · exact ⟨_, _, (Except.error.inj h).symm⟩
    · split at h
      · exact ⟨_, _, (Except.error.inj h).symm⟩
      · cases h
  · exact ⟨_, _, (Except.error.inj h).symm⟩

theorem malformed_of_step (h : s.step none t = .error e) : ∃ position cause, e = .malformed position cause := by
  rw [step] at h
  split at h
  · cases h
  · cases h
  · exact ⟨_, _, (Except.error.inj h).symm⟩
  · simp only at h
    split at h
    · cases h
    · exact malformed_of_begin h

theorem malformed_of_run (h : s.run none ts = .error e) : ∃ position cause, e = .malformed position cause := by
  induction ts generalizing s with
  | nil => cases h
  | cons t ts ih =>
    rw [run] at h
    split at h
    · exact ih h
    · rename_i hstep
      obtain rfl := Except.error.inj h
      exact malformed_of_step hstep

theorem malformed_of_finish {stop : Nat} (h : s.finish stop = .error e) :
    ∃ position cause, e = .malformed position cause := by
  rw [finish] at h
  split at h
  · exact ⟨_, _, (Except.error.inj h).symm⟩
  · simp only at h
    split at h
    · exact ⟨_, _, (Except.error.inj h).symm⟩
    · split at h
      · cases h
      · exact ⟨_, _, (Except.error.inj h).symm⟩

end CallGrammar.Parser.State
