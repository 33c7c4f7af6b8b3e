import CallGrammar.Proofs.OpenGroups
import CallGrammar.Proofs.Parser

namespace CallGrammar

namespace Expr

variable {α β : Type}

mutual

def depth : Expr α → Nat
  | .term _ => 0
  | .seq items => depthAll items
  | .alt branches => depthAll branches + 1
  | .star inner => depth inner
  | .plus inner => depth inner
  | .optional inner => depth inner

def depthAll : List (Expr α) → Nat
  | [] => 0
  | e :: es => max (depth e) (depthAll es)

end

mutual

theorem depth_map (f : α → β) (e : Expr α) : (e.map f).depth = e.depth := by
  cases e with
  | term a => rfl
  | seq items => exact depthAll_mapAll f items
  | alt branches => exact congrArg (· + 1) (depthAll_mapAll f branches)
  | star inner => exact depth_map f inner
  | plus inner => exact depth_map f inner
  | optional inner => exact depth_map f inner

theorem depthAll_mapAll (f : α → β) (es : List (Expr α)) : depthAll (mapAll f es) = depthAll es := by
  cases es with
  | nil => rfl
  | cons e es => rw [mapAll, depthAll, depthAll, depth_map, depthAll_mapAll]

end

theorem depth_wrap (q : Quantifier) (e : Expr α) : (q.wrap e).depth = e.depth := by
  cases q <;> rfl

end Expr

def Phrase.depth : Phrase → Nat
  | .atom e => e.depth
  | .item e => e.depth
  | .sequence items => Expr.depthAll items
  | .alternation branches => Expr.depthAll branches

def nest (n : Nat) : TokenKind → Nat
  | .parenOpen => n + 1
  | .parenClose => n - 1
  | _ => n

def peak : Nat → List TokenKind → Nat
  | n, [] => n
  | n, kind :: kinds => max n (peak (nest n kind) kinds)

theorem le_peak (n : Nat) (kinds : List TokenKind) : n ≤ peak n kinds := by
  cases kinds with
  | nil => exact Nat.le_refl n
  | cons kind kinds => exact Nat.le_max_left _ _

theorem peak_cons_of_nest_eq {n : Nat} {kind : TokenKind} (h : nest n kind = n) (kinds : List TokenKind) :
    peak n (kind :: kinds) = peak n kinds := by
  rw [peak, h, Nat.max_eq_right (le_peak n kinds)]

theorem nest_eq_self {n : Nat} {kind : TokenKind} (ho : kind ≠ .parenOpen) (hc : kind ≠ .parenClose) :
    nest n kind = n := by
  cases kind with
  | parenOpen => exact absurd rfl ho
  | parenClose => exact absurd rfl hc
  | colon | star | plus | question | pipe | ident | whitespace | garbage => rfl

theorem nest_quantifier (n : Nat) (q : Quantifier) : nest n q.kind = n := by
  cases q <;> rfl

theorem peak_of_reads {p : Phrase} {ts : List Token} (h : Reads p ts) (n : Nat) (kinds : List TokenKind) :
    peak n (ts.map (·.kind) ++ kinds) = max (n + p.depth) (peak n kinds) := by
  have hle := le_peak n kinds
  induction h generalizing n kinds with
  | name ht =>
    simp only [List.map_cons, List.map_nil, List.cons_append, List.nil_append, ht]
    rw [peak_cons_of_nest_eq rfl]
    exact (Nat.max_eq_right hle).symm
  | aliased ht hc ha =>
    simp only [List.map_cons, List.map_nil, List.cons_append, List.nil_append, ht, hc, ha]
    rw [peak_cons_of_nest_eq rfl, peak_cons_of_nest_eq rfl, peak_cons_of_nest_eq rfl]
    exact (Nat.max_eq_right hle).symm
  | @group o c ts branches ho hc _ ih =>
    have hinner := ih (n + 1) (.parenClose :: kinds) (le_peak _ _)
    have hclose : peak (n + 1) (.parenClose :: kinds) = max (n + 1) (peak n kinds) := rfl
    simp only [List.map_cons, List.map_append, List.map_nil, List.cons_append, List.append_assoc, List.nil_append, ho, hc]
    rw [peak, nest, hinner, hclose]
    simp only [Phrase.depth, Expr.depth]
    omega
  | bare _ ih => exact ih n kinds hle
  | quantified q ht _ ih =>
    have hinner := ih n (q.kind :: kinds) (le_peak _ _)
    rw [peak_cons_of_nest_eq (nest_quantifier n q)] at hinner
    simpa [ht, Phrase.depth, Expr.depth_wrap] using hinner
  | last _ ih =>
    rw [ih n kinds hle]
    simp [Phrase.depth, Expr.depthAll]
  | @more e items ts us _ _ ihe ihs =>
    rw [List.map_append, List.append_assoc, ihe n _ (le_peak _ _), ihs n kinds hle]
    simp only [Phrase.depth, Expr.depthAll]
    omega
  | branch _ ih =>
    rw [ih n kinds hle]
    simp [Phrase.depth, Expr.depth, Expr.depthAll]
  | @split items branches ts us p hp _ _ ihs ihb =>
    rw [List.map_append, List.append_assoc, ihs n _ (le_peak _ _), List.map_cons, hp, List.cons_append,
      peak_cons_of_nest_eq rfl, ihb n kinds hle]
    simp only [Phrase.depth, Expr.depth, Expr.depthAll]
    omega

namespace Parser.State

variable {k : Nat} {s s' : State} {t : Token} {ts : List Token}

theorem begin_some (k : Nat) (s : State) (t : Token) : s.begin (some k) t =
    if t.kind = .parenOpen ∧ k ≤ s.outer.length then .error .tooDeep else s.begin none t := by
  rw [begin, begin]
  cases t.kind <;> simp

theorem step_some (h : s.step none t = .ok s') : s.step (some k) t =
    if t.kind = .parenOpen ∧ k ≤ s.outer.length then .error .tooDeep else .ok s' := by
  rcases step_cases h with ⟨name, hpending, hkind, rfl⟩ | ⟨name, hpending, hkind, rfl⟩ | ⟨hbetween, hquantify⟩ |
    ⟨hbetween, hbegin⟩
  · simp [step, hpending, hkind]
  · simp [step, hpending, hkind]
  · obtain ⟨q, e, hkind, hatom, rfl⟩ := quantify?_eq_some hquantify
    rw [step_eq_quantified hbetween hatom q hkind, hkind]
    cases q <;> simp [Quantifier.kind]
  · rw [step_eq_begin hbetween (mem_boundaries_of_begin hbegin), begin_some, outer_settle, hbegin]

theorem length_outer_step (h : s.step none t = .ok s') : s'.outer.length = nest s.outer.length t.kind := by
  rcases outer_of_step h with ⟨hkind, b, houter⟩ | ⟨hkind, opened, houter⟩ | ⟨hopen, hclose, houter⟩
  · rw [houter, hkind, nest, List.length_cons]
  · rw [houter, hkind, nest, List.length_cons, Nat.add_sub_cancel]
  · rw [houter, nest_eq_self hopen hclose]

theorem run_some (h : s.run none ts = .ok s') (hs : s.outer.length ≤ k) : s.run (some k) ts =
    if peak s.outer.length (ts.map (·.kind)) ≤ k then .ok s' else .error .tooDeep := by
  induction ts generalizing s with
  | nil =>
    obtain rfl := Except.ok.inj h
    simp [run, peak, hs]
  | cons t ts ih =>
    rw [run] at h
    split at h
    · rename_i middle hstep
      have hlength := length_outer_step hstep
      rw [run, step_some hstep, List.map_cons, peak, ← hlength]
      by_cases hdeep : t.kind = .parenOpen ∧ k ≤ s.outer.length
      · have hle := le_peak middle.outer.length (ts.map (·.kind))
        rw [hdeep.1, nest] at hlength
        rw [if_pos hdeep, if_neg (by omega)]
      · have hmiddle : middle.outer.length ≤ k := by
          rw [hlength]
          cases hkind : t.kind <;> simp [nest, hkind] at hdeep ⊢ <;> omega
        rw [if_neg hdeep]
        simp only [ih h hmiddle, Nat.max_le, hs, true_and]
    · cases h

end Parser.State

open CallGrammar.Parser.State

theorem parseTokens_some_of_reads {branches : List (Expr Mention)} {ts : List Token} (k stop : Nat)
    (h : Reads (.alternation branches) ts) : parseTokens (some k) stop ts =
      if Expr.depthAll branches ≤ k then parseTokens none stop ts else .error .tooDeep := by
  obtain ⟨s, hrun, _, _⟩ := takes_of_reads h .initial (by simp [Between, Parser.State.initial])
  have hpeak : peak 0 (ts.map (·.kind)) = Expr.depthAll branches := by
    have hphrase := peak_of_reads h 0 []
    simpa [Phrase.depth, peak] using hphrase
  have hlimited : run (some k) .initial ts = if peak 0 (ts.map (·.kind)) ≤ k then .ok s else .error .tooDeep :=
    run_some hrun (Nat.zero_le k)
  rw [parseTokens, parseTokens, hrun, hlimited, hpeak]
  by_cases hdepth : Expr.depthAll branches ≤ k
  · rw [if_pos hdepth, if_pos hdepth]
  · rw [if_neg hdepth, if_neg hdepth]

end CallGrammar
