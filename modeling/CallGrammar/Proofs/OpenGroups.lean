import CallGrammar.Proofs.Reader

namespace CallGrammar

structure OpenAt (ks : List TokenKind) (i : Nat) : Prop where
  kind_eq : ks[i]? = some .parenOpen
  count_le (n : Nat) : ((ks.drop (i + 1)).take n).count .parenClose ≤ ((ks.drop (i + 1)).take n).count .parenOpen

structure InnermostOpen (ks : List TokenKind) (i : Nat) : Prop where
  openAt : OpenAt ks i
  last {j : Nat} : i < j → ¬ OpenAt ks j

namespace OpenAt

variable {u v : List TokenKind} {i : Nat}

theorem lt_length (h : OpenAt u i) : i < u.length := (List.getElem?_eq_some_iff.mp h.kind_eq).1

theorem of_append (h : OpenAt (u ++ v) i) (hi : i < u.length) : OpenAt u i where
  kind_eq := by
    rw [← List.getElem?_append_left hi]
    exact h.kind_eq
  count_le n := by
    have hcount := h.count_le (min n (u.drop (i + 1)).length)
    rwa [List.drop_append_of_le_length hi, List.take_append_of_le_length (Nat.min_le_right _ _),
      List.take_eq_take_min.symm] at hcount

theorem append (h : OpenAt u i) (hv : ∀ n, (v.take n).count .parenClose ≤ (v.take n).count .parenOpen) :
    OpenAt (u ++ v) i where
  kind_eq := by
    rw [List.getElem?_append_left h.lt_length]
    exact h.kind_eq
  count_le n := by
    rw [List.drop_append_of_le_length h.lt_length, List.take_append, List.count_append, List.count_append]
    exact Nat.add_le_add (h.count_le n) (hv _)

theorem of_append_right (h : OpenAt (u ++ v) (u.length + i)) : OpenAt v i where
  kind_eq := by simpa [List.getElem?_append_right] using h.kind_eq
  count_le n := by
    have hcount := h.count_le n
    rwa [Nat.add_assoc, List.drop_length_add_append] at hcount

end OpenAt

structure Balanced (ks : List TokenKind) : Prop where
  count_take_le (n : Nat) : (ks.take n).count .parenClose ≤ (ks.take n).count .parenOpen
  count_eq : ks.count .parenClose = ks.count .parenOpen

namespace Balanced

variable {u v : List TokenKind}

theorem nil : Balanced [] := ⟨by simp, rfl⟩

theorem append (hu : Balanced u) (hv : Balanced v) : Balanced (u ++ v) where
  count_take_le n := by
    rw [List.take_append, List.count_append, List.count_append]
    exact Nat.add_le_add (hu.count_take_le n) (hv.count_take_le _)
  count_eq := by rw [List.count_append, List.count_append, hu.count_eq, hv.count_eq]

theorem singleton {kind : TokenKind} (ho : kind ≠ .parenOpen) (hc : kind ≠ .parenClose) : Balanced [kind] where
  count_take_le n := by cases n <;> simp [ho, hc]
  count_eq := by simp [ho, hc]

theorem group (h : Balanced u) : Balanced (.parenOpen :: (u ++ [.parenClose])) where
  count_take_le n := by
    cases n with
    | zero => simp
    | succ n =>
      have hbody := h.count_take_le n
      have hlast : ([TokenKind.parenClose].take (n - u.length)).count .parenClose ≤ 1 :=
        Nat.le_trans List.count_le_length (List.length_take_le' _ _)
      rw [List.take_succ_cons, List.take_append, List.count_cons_of_ne (by decide), List.count_cons_self,
        List.count_append, List.count_append]
      omega
  count_eq := by
    rw [List.count_cons_of_ne (by decide), List.count_cons_self, List.count_append, List.count_append, h.count_eq]
    rfl

theorem not_openAt {i : Nat} (h : Balanced v) : ¬ OpenAt v i := by
  intro hopen
  have hlt := hopen.lt_length
  have hrest := hopen.count_le v.length
  rw [List.take_of_length_le (by simp)] at hrest
  have hbefore := h.count_take_le i
  have htotal := h.count_eq
  have hsplit : v = v.take i ++ .parenOpen :: v.drop (i + 1) := by
    rw [← (List.getElem?_eq_some_iff.mp hopen.kind_eq).2, ← List.drop_eq_getElem_cons hlt, List.take_append_drop]
  rw [hsplit, List.count_append, List.count_append, List.count_cons_of_ne (by decide), List.count_cons_self] at htotal
  omega

theorem innermostOpen (h : Balanced v) : InnermostOpen (u ++ .parenOpen :: v) u.length where
  openAt := ⟨by simp, fun n => by simpa using h.count_take_le n⟩
  last {j} hj hopen := by
    obtain ⟨m, rfl⟩ := Nat.exists_eq_add_of_lt hj
    have hlength : u.length + m + 1 = (u ++ [TokenKind.parenOpen]).length + m := by
      rw [List.length_append, List.length_singleton]
      omega
    rw [List.append_cons, hlength] at hopen
    exact h.not_openAt hopen.of_append_right

theorem openAt_append_iff {i : Nat} (h : Balanced v) :
    OpenAt (u ++ .parenOpen :: v) i ↔ i = u.length ∨ OpenAt u i := by
  constructor
  · intro hopen
    rcases Nat.lt_trichotomy i u.length with hlt | heq | hgt
    · exact .inr (hopen.of_append hlt)
    · exact .inl heq
    · exact absurd hopen (h.innermostOpen.last hgt)
  · rintro (rfl | hopen)
    · exact h.innermostOpen.openAt
    · refine hopen.append fun n => ?_
      cases n with
      | zero => simp
      | succ n =>
        have hbody := h.count_take_le n
        rw [List.take_succ_cons, List.count_cons_of_ne (by decide), List.count_cons_self]
        omega

end Balanced

inductive Opens : List Span → List Token → Prop where
  | nil {ts : List Token} : Balanced (ts.map (·.kind)) → Opens [] ts
  | cons {spans : List Span} {ts us : List Token} {o : Token} :
      Opens spans ts → o.kind = .parenOpen → Balanced (us.map (·.kind)) → Opens (o.span :: spans) (ts ++ o :: us)

namespace Opens

variable {spans : List Span} {opened : Span} {ts us : List Token} {t : Token}

theorem append (h : Opens spans ts) (hus : Balanced (us.map (·.kind))) : Opens spans (ts ++ us) := by
  cases h with
  | nil hts =>
    refine .nil ?_
    rw [List.map_append]
    exact hts.append hus
  | cons hts ho hbody =>
    rw [List.append_assoc, List.cons_append]
    refine .cons hts ho ?_
    rw [List.map_append]
    exact hbody.append hus

theorem enter (h : Opens spans ts) (ht : t.kind = .parenOpen) : Opens (t.span :: spans) (ts ++ [t]) := .cons h ht .nil

theorem leave (h : Opens (opened :: spans) ts) (ht : t.kind = .parenClose) : Opens spans (ts ++ [t]) := by
  cases h with
  | @cons _ ts us o hts ho hbody =>
    rw [List.append_assoc]
    refine hts.append ?_
    rw [List.cons_append, List.map_cons, List.map_append, ho, List.map_singleton, ht]
    exact hbody.group

theorem other (h : Opens spans ts) (ho : t.kind ≠ .parenOpen) (hc : t.kind ≠ .parenClose) : Opens spans (ts ++ [t]) :=
  h.append (.singleton ho hc)

theorem exists_innermostOpen (h : Opens (opened :: spans) ts) :
    ∃ i t, ts[i]? = some t ∧ t.span = opened ∧ InnermostOpen (ts.map (·.kind)) i := by
  cases h with
  | @cons _ ts us o hts ho hbody =>
    refine ⟨ts.length, o, by simp, rfl, ?_⟩
    rw [List.map_append, List.map_cons, ho, ← List.length_map (·.kind)]
    exact hbody.innermostOpen

end Opens

namespace Parser.State

variable {limit : Option Nat} {s s' : State} {t : Token} {ts us : List Token}

theorem outer_settleName (s : State) : s.settleName.outer = s.outer := by
  rw [settleName]
  split <;> rfl

theorem outer_settle (s : State) : s.settle.outer = s.outer := by
  rw [settle, settleAtom]
  split
  · exact s.outer_settleName
  · exact s.outer_settleName

theorem outer_of_step (h : s.step limit t = .ok s') :
    (t.kind = .parenOpen ∧ ∃ b, s'.outer = (t.span, b) :: s.outer) ∨
    (t.kind = .parenClose ∧ ∃ opened, s.outer = opened :: s'.outer) ∨
    (t.kind ≠ .parenOpen ∧ t.kind ≠ .parenClose ∧ s'.outer = s.outer) := by
  rcases step_cases h with ⟨name, _, hkind, rfl⟩ | ⟨name, _, hkind, rfl⟩ | ⟨_, hquantify⟩ | ⟨_, hbegin⟩
  · exact .inr (.inr ⟨by simp [hkind], by simp [hkind], rfl⟩)
  · exact .inr (.inr ⟨by simp [hkind], by simp [hkind], rfl⟩)
  · obtain ⟨q, e, hkind, _, rfl⟩ := quantify?_eq_some hquantify
    refine .inr (.inr ⟨?_, ?_, s.outer_settleName⟩) <;> cases q <;> simp [hkind, Quantifier.kind]
  · rw [← outer_settle s]
    rcases begin_cases hbegin with ⟨hkind, rfl⟩ | ⟨hkind, _, rfl⟩ | ⟨hkind, _, rfl⟩ |
      ⟨hkind, _, opened, enclosing, outer, houter, rfl⟩
    · exact .inr (.inr ⟨by simp [hkind], by simp [hkind], rfl⟩)
    · exact .inl ⟨hkind, _, rfl⟩
    · exact .inr (.inr ⟨by simp [hkind], by simp [hkind], rfl⟩)
    · exact .inr (.inl ⟨hkind, _, houter⟩)

theorem opens_step (h : Opens (s.outer.map (·.1)) ts) (hs : s.step limit t = .ok s') :
    Opens (s'.outer.map (·.1)) (ts ++ [t]) := by
  rcases outer_of_step hs with ⟨hkind, b, houter⟩ | ⟨hkind, opened, houter⟩ | ⟨hopen, hclose, houter⟩
  · rw [houter]
    exact h.enter hkind
  · rw [houter] at h
    exact h.leave hkind
  · rw [houter]
    exact h.other hopen hclose

theorem opens_run (h : Opens (s.outer.map (·.1)) us) (hs : s.run limit ts = .ok s') :
    Opens (s'.outer.map (·.1)) (us ++ ts) := by
  induction ts generalizing s us with
  | nil =>
    obtain rfl := Except.ok.inj hs
    rwa [List.append_nil]
  | cons t ts ih =>
    rw [run] at hs
    split at hs
    · rename_i middle hstep
      rw [List.append_cons]
      exact ih (opens_step h hstep) hs
    · cases hs

end Parser.State

end CallGrammar
