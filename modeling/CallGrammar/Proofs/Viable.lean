import CallGrammar.Proofs.Parser

namespace CallGrammar

def Viable (us : List TokenKind) : Prop := ∃ vs, Derives .alternation (us ++ vs)

section reach

variable {ks us vs : List TokenKind} {i p q : Nat}

theorem Viable.of_append (h : Viable (us ++ vs)) : Viable us := by
  obtain ⟨ws, hws⟩ := h
  exact ⟨vs ++ ws, by rwa [← List.append_assoc]⟩

theorem Viable.take_of_le (h : Viable (ks.take q)) (hpq : p ≤ q) : Viable (ks.take p) := by
  rw [← Nat.add_sub_cancel' hpq, List.take_add] at h
  exact h.of_append

structure Reach (ks : List TokenKind) (p : Nat) : Prop where
  le_length : p ≤ ks.length
  viable : Viable (ks.take p)
  not_viable : p < ks.length → ¬ Viable (ks.take (p + 1))

namespace Reach

theorem lt_iff (h : Reach ks p) : i < p ↔ i < ks.length ∧ Viable (ks.take (i + 1)) := by
  constructor
  · intro hi
    exact ⟨Nat.lt_of_lt_of_le hi h.le_length, h.viable.take_of_le hi⟩
  · rintro ⟨hi, hviable⟩
    refine Nat.lt_of_not_le fun hpi => ?_
    exact h.not_viable (Nat.lt_of_le_of_lt hpi hi) (hviable.take_of_le (Nat.succ_le_succ hpi))

theorem le (h : Reach ks p) (h' : Reach ks q) : p ≤ q :=
  Nat.not_lt.mp fun hqp => Nat.lt_irrefl q (h'.lt_iff.mpr (h.lt_iff.mp hqp))

theorem unique (h : Reach ks p) (h' : Reach ks q) : p = q := Nat.le_antisymm (h.le h') (h'.le h)

end Reach

end reach

namespace Parser

variable {s s' : State} {b : Branches} {outer : List (Span × Branches)} {pending : Pending} {u v us : List TokenKind}
  {t : Token} {ts : List Token} {limit : Option Nat} {e : ParseError}

theorem Begun.exists_atom (h : Begun pending u) : ∃ v, Derives .atom (u ++ v) := by
  cases h with
  | nothing => exact ⟨[.ident], .name⟩
  | name => exact ⟨[], .name⟩
  | colon => exact ⟨[.ident], .aliased⟩
  | atom h => exact ⟨[], by rwa [List.append_nil]⟩

theorem Enclosed.derives_append (h : Enclosed outer u) (hv : Derives .alternation v) :
    Derives .alternation (u ++ v ++ List.replicate outer.length .parenClose) := by
  induction h generalizing v with
  | nil => simpa using hv
  | @cons outer opened b u w _ hw ih =>
    have hgroup : Derives .alternation (TokenKind.parenOpen :: (v ++ [.parenClose])) :=
      .branch (.last (.bare (.group hv)))
    have hrest := ih (hw.derives_append.1 _ hgroup)
    simpa [List.replicate_succ] using hrest

theorem Held.viable (h : Held s us) : Viable us := by
  obtain ⟨u, v, w, hu, hv, hw, rfl⟩ := h
  obtain ⟨x, hx⟩ := hw.exists_atom
  have hrest := hu.derives_append (hv.derives_append.1 _ (.branch (.last (.bare hx))))
  exact ⟨x ++ List.replicate s.outer.length .parenClose, by simpa using hrest⟩

namespace State

structure Complete (s : State) : Prop where
  between : s.Between
  items_ne_nil : s.settle.current.items ≠ []
  outer_eq_nil : s.settle.outer = []

structure Closable (s : State) : Prop where
  between : s.Between
  items_ne_nil : s.settle.current.items ≠ []
  outer_ne_nil : s.settle.outer ≠ []

theorem finish_cases (s : State) (stop : Nat) :
    (∃ name, s.pending = .colon name ∧ s.finish stop = .error (.malformed (.point stop) (.expectedAlias name.text name.span))) ∨
    (s.Between ∧ s.settle.current.items = [] ∧ s.finish stop = .error (.malformed (.point stop) (.expectedTerm none))) ∨
    (s.Complete ∧ s.finish stop = .ok ⟨s.settle.current.expr, s.settle.terms⟩) ∨
    (s.Closable ∧ ∃ opened enclosing outer, s.settle.outer = (opened, enclosing) :: outer ∧
      s.finish stop = .error (.malformed (.point stop) (.unclosedGroup opened))) := by
  rw [finish]
  split
  · rename_i name hpending
    exact .inl ⟨name, hpending, rfl⟩
  · rename_i hbetween
    cases hitems : s.settle.current.items with
    | nil => exact .inr (.inl ⟨hbetween, rfl, by simp [hitems]⟩)
    | cons item items =>
      have hne : s.settle.current.items ≠ [] := by simp [hitems]
      cases houter : s.settle.outer with
      | nil => exact .inr (.inr (.inl ⟨⟨hbetween, hne, houter⟩, by simp [hitems, houter]⟩))
      | cons group outer =>
        obtain ⟨opened, enclosing⟩ := group
        exact .inr (.inr (.inr ⟨⟨hbetween, hne, by simp [houter]⟩, opened, enclosing, outer, rfl, by simp [hitems, houter]⟩))

theorem exists_finish_iff (stop : Nat) : (∃ p, s.finish stop = .ok p) ↔ s.Complete := by
  rcases finish_cases s stop with ⟨name, hpending, h⟩ | ⟨_, hitems, h⟩ | ⟨hcomplete, h⟩ | ⟨hclosable, _, _, _, _, h⟩ <;>
    rw [h]
  · exact iff_of_false (by simp) fun hc => hc.between name hpending
  · exact iff_of_false (by simp) fun hc => hc.items_ne_nil hitems
  · exact iff_of_true ⟨_, rfl⟩ hcomplete
  · exact iff_of_false (by simp) fun hc => hclosable.outer_ne_nil hc.outer_eq_nil

theorem begin_error (h : s.begin none t = .error e) :
    (t.kind = .parenClose ∧ s.current.items ≠ [] ∧ s.outer = [] ∧ e = .malformed t.span (.trailingInput t.text)) ∨
    ((t.kind = .parenClose → s.current.items = []) ∧ e = .malformed t.span (.expectedTerm (some t.kind))) := by
  rw [begin] at h
  split at h
  · cases h
  · cases h
  · rename_i hkind
    split at h
    · exact .inr ⟨fun hclose => by simp [hkind] at hclose, (Except.error.inj h).symm⟩
    · cases h
  · rename_i hkind
    split at h
    · rename_i hitems
      exact .inr ⟨fun _ => by simpa using hitems, (Except.error.inj h).symm⟩
    · rename_i hitems
      split at h
      · rename_i houter
        exact .inl ⟨hkind, by simpa using hitems, houter, (Except.error.inj h).symm⟩
      · cases h
  · rename_i hclose
    exact .inr ⟨fun hkind => absurd hkind hclose, (Except.error.inj h).symm⟩

theorem step_error (h : s.step none t = .error e) :
    (∃ name, s.pending = .colon name ∧ e = .malformed t.span (.expectedAlias name.text name.span)) ∨
    (s.Complete ∧ t.kind = .parenClose ∧ e = .malformed t.span (.trailingInput t.text)) ∨
    (s.Between ∧ (t.kind = .parenClose → ¬ s.Complete) ∧ e = .malformed t.span (.expectedTerm (some t.kind))) := by
  rw [step] at h
  split at h
  · cases h
  · cases h
  · rename_i name hpending _
    exact .inl ⟨name, hpending, (Except.error.inj h).symm⟩
  · rename_i hcolon _ _
    have hbetween : s.Between := fun name hname => hcolon name hname
    simp only at h
    split at h
    · cases h
    · rcases begin_error h with ⟨hkind, hitems, houter, rfl⟩ | ⟨hclose, rfl⟩
      · exact .inr (.inl ⟨⟨hbetween, hitems, houter⟩, hkind, rfl⟩)
      · exact .inr (.inr ⟨hbetween, fun hkind hcomplete => hcomplete.items_ne_nil (hclose hkind), rfl⟩)

theorem pending_colon_iff (h : s.step limit t = .ok s') : (∃ name, s'.pending = .colon name) ↔ t.kind = .colon := by
  rcases pending_of_step h with ⟨name, _, hkind, hpending⟩ | ⟨hkind, hpending⟩
  · exact iff_of_true ⟨name, hpending⟩ hkind
  · refine iff_of_false ?_ hkind
    rcases hpending with hpending | hpending | ⟨e, hpending⟩ <;> simp [hpending]

theorem exists_run_of_run_append {us : List Token} (h : run limit s (ts ++ us) = .ok s') :
    ∃ middle, run limit s ts = .ok middle ∧ run limit middle us = .ok s' := by
  cases hrun : run limit s ts with
  | ok middle =>
    rw [run_append_of_run hrun] at h
    exact ⟨middle, rfl, h⟩
  | error e =>
    rw [run_append_of_error hrun] at h
    cases h

theorem exists_run_of_run_concat (h : run limit s (ts ++ [t]) = .ok s') :
    ∃ middle, run limit s ts = .ok middle ∧ middle.step limit t = .ok s' := by
  obtain ⟨middle, hrun, hrest⟩ := exists_run_of_run_append h
  rw [run] at hrest
  split at hrest
  · rename_i hstep
    obtain rfl := Except.ok.inj hrest
    exact ⟨middle, hrun, hstep⟩
  · cases hrest

theorem exists_step_of_run_error (h : run limit s ts = .error e) :
    ∃ p t middle, ts[p]? = some t ∧ run limit s (ts.take p) = .ok middle ∧ middle.step limit t = .error e := by
  induction ts generalizing s with
  | nil => cases h
  | cons t ts ih =>
    rw [run] at h
    split at h
    · rename_i middle hstep
      obtain ⟨p, t', last, ht', hrun, herror⟩ := ih h
      refine ⟨p + 1, t', last, ht', ?_, herror⟩
      rw [List.take_succ_cons, run_cons_of_step hstep, hrun]
    · rename_i hstep
      obtain rfl := Except.error.inj h
      exact ⟨0, t, s, rfl, rfl, hstep⟩

end State

end Parser

open CallGrammar.Parser CallGrammar.Parser.State

variable {s : State} {ts : List Token} {us : List TokenKind}

theorem exists_map_kind_eq (us : List TokenKind) : ∃ ts : List Token, ts.map (·.kind) = us :=
  ⟨us.map fun kind => ⟨kind, .point 0, ""⟩, by rw [List.map_map]; exact List.map_id us⟩

theorem exists_run_of_viable (h : Viable (ts.map (·.kind))) : ∃ s, run none .initial ts = .ok s := by
  obtain ⟨vs, hvs⟩ := h
  obtain ⟨rest, rfl⟩ := exists_map_kind_eq vs
  rw [← List.map_append, derives_alternation_iff] at hvs
  obtain ⟨branches, hread⟩ := hvs
  obtain ⟨s', hrun, _⟩ := takes_of_reads hread .initial (by simp [Between, State.initial])
  obtain ⟨s, hs, _⟩ := exists_run_of_run_append hrun
  exact ⟨s, hs⟩

theorem exists_run_iff_viable : (∃ s, run none .initial ts = .ok s) ↔ Viable (ts.map (·.kind)) := by
  constructor
  · rintro ⟨s, hrun⟩
    exact (held_initial.run hrun).viable
  · exact exists_run_of_viable

theorem complete_iff_derives (h : run none .initial ts = .ok s) : s.Complete ↔ Derives .alternation (ts.map (·.kind)) := by
  rw [← exists_finish_iff 0]
  constructor
  · rintro ⟨p, hp⟩
    exact (held_initial.run h).finish hp
  · intro hderives
    obtain ⟨branches, hread⟩ := derives_alternation_iff.mp hderives
    have hparse : parseTokens none 0 ts = _ := parseTokens_of_reads hread
    rw [parseTokens, h] at hparse
    exact ⟨_, hparse⟩

theorem closable_iff_derives (h : run none .initial ts = .ok s) :
    s.Closable ↔ ∃ n, 0 < n ∧ Derives .alternation (ts.map (·.kind) ++ List.replicate n .parenClose) := by
  constructor
  · rintro ⟨hbetween, hitems, houter⟩
    obtain ⟨u, v, w, hu, hv, hw, hkinds⟩ := (held_initial.run h).settle
    rw [pending_settle hbetween] at hw
    cases hw
    refine ⟨s.settle.outer.length, List.length_pos_iff.mpr houter, ?_⟩
    rw [List.nil_append] at hkinds
    rw [hkinds, List.append_nil]
    exact hu.derives_append (hv.derives hitems)
  · rintro ⟨n, hn, hderives⟩
    obtain ⟨n, rfl⟩ := Nat.exists_eq_succ_of_ne_zero (Nat.ne_of_gt hn)
    let close : Token := ⟨.parenClose, .point 0, ")"⟩
    have hkinds : (ts ++ close :: List.replicate n close).map (·.kind) =
        ts.map (·.kind) ++ List.replicate (n + 1) .parenClose := by
      simp [close, List.replicate_succ]
    rw [← hkinds] at hderives
    obtain ⟨last, hrun⟩ := exists_run_of_viable ⟨[], by rwa [List.append_nil]⟩
    rw [run_append_of_run h, State.run] at hrun
    split at hrun
    · rename_i hstep
      rcases step_cases hstep with ⟨_, _, hkind, _⟩ | ⟨_, _, hkind, _⟩ | ⟨_, hquantify⟩ | ⟨hbetween, hbegin⟩
      · cases hkind
      · cases hkind
      · rw [quantify?_of_mem_boundaries (by simp [boundaries, close])] at hquantify
        cases hquantify
      · rcases begin_cases hbegin with ⟨hkind, _⟩ | ⟨hkind, _⟩ | ⟨hkind, _⟩ | ⟨_, hitems, _, _, _, houter, _⟩
        · cases hkind
        · cases hkind
        · cases hkind
        · exact ⟨hbetween, hitems, by simp [houter]⟩
    · cases hrun

theorem pending_colon_iff_getLast? (h : run none .initial ts = .ok s) :
    (∃ name, s.pending = .colon name) ↔ (ts.map (·.kind)).getLast? = some .colon := by
  rcases List.eq_nil_or_concat ts with rfl | ⟨before, t, rfl⟩
  · obtain rfl := Except.ok.inj h
    simp [State.initial]
  · rw [List.concat_eq_append] at h ⊢
    obtain ⟨middle, _, hstep⟩ := exists_run_of_run_concat h
    rw [pending_colon_iff hstep]
    simp

end CallGrammar
