import CallGrammar.Proofs.FirstFault
import CallGrammar.Proofs.Limit
import Mathlib.Data.Finset.Card
import Mathlib.Data.Finset.Range

namespace CallGrammar

open CallGrammar.Parser CallGrammar.Parser.State

instance (ks : List TokenKind) (i : Nat) : Decidable (OpenAt ks i) :=
  decidable_of_iff (ks[i]? = some .parenOpen ∧ ∀ n < ks.length + 1,
      ((ks.drop (i + 1)).take n).count .parenClose ≤ ((ks.drop (i + 1)).take n).count .parenOpen) <| by
    constructor
    · rintro ⟨hkind, hcount⟩
      refine ⟨hkind, fun n => ?_⟩
      have hle : min n (ks.drop (i + 1)).length ≤ ks.length :=
        (Nat.min_le_right _ _).trans (List.drop_sublist (i + 1) ks).length_le
      have hshort := hcount _ (Nat.lt_succ_of_le hle)
      rwa [← List.take_eq_take_min] at hshort
    · rintro ⟨hkind, hcount⟩
      exact ⟨hkind, fun n _ => hcount n⟩

def openCount (ks : List TokenKind) : Nat := ((Finset.range ks.length).filter (OpenAt ks)).card

theorem mem_openAt_iff {ks : List TokenKind} {i : Nat} :
    i ∈ (Finset.range ks.length).filter (OpenAt ks) ↔ OpenAt ks i := by
  rw [Finset.mem_filter, Finset.mem_range, and_iff_right_iff_imp]
  exact OpenAt.lt_length

theorem Opens.openCount_eq {spans : List Span} {ts : List Token} (h : Opens spans ts) :
    openCount (ts.map (·.kind)) = spans.length := by
  induction h with
  | @nil ts hts =>
    refine Finset.card_eq_zero.mpr (Finset.eq_empty_of_forall_notMem fun i hi => ?_)
    exact hts.not_openAt (mem_openAt_iff.mp hi)
  | @cons spans ts us o hts ho hus ih =>
    have hnew : (ts.map (·.kind)).length ∉ (Finset.range (ts.map (·.kind)).length).filter (OpenAt (ts.map (·.kind))) :=
      fun hmem => Nat.lt_irrefl _ (mem_openAt_iff.mp hmem).lt_length
    rw [List.length_cons, ← ih, openCount, openCount, ← Finset.card_insert_of_notMem hnew]
    congr 1
    ext i
    rw [mem_openAt_iff, Finset.mem_insert, mem_openAt_iff, List.map_append, List.map_cons, ho, hus.openAt_append_iff]

namespace Parser.State

variable {k : Nat} {s s' : State} {t : Token} {ts : List Token} {e : ParseError}

theorem step_some_of_error (h : s.step none t = .error e) : s.step (some k) t = .error e := by
  rw [step] at h ⊢
  split at h
  · cases h
  · cases h
  · exact h
  · simp only at h ⊢
    split at h
    · cases h
    · rw [begin_some, if_neg, h]
      rintro ⟨hkind, _⟩
      rw [begin, hkind] at h
      cases h

def Beyond (k : Nat) (s : State) (ts : List Token) (i : Nat) : Prop :=
  ∃ t before after, ts[i]? = some t ∧ t.kind = .parenOpen ∧ k ≤ before.outer.length ∧
    run none s (ts.take i) = .ok before ∧ before.step none t = .ok after

theorem beyond_zero_iff (h : s.step none t = .ok s') :
    Beyond k s (t :: ts) 0 ↔ t.kind = .parenOpen ∧ k ≤ s.outer.length := by
  constructor
  · rintro ⟨_, before, _, ht, hkind, hdepth, hrun, _⟩
    obtain rfl := Option.some.inj ht
    obtain rfl := Except.ok.inj hrun
    exact ⟨hkind, hdepth⟩
  · rintro ⟨hkind, hdepth⟩
    exact ⟨t, s, s', rfl, hkind, hdepth, rfl, h⟩

theorem beyond_succ_iff (h : s.step none t = .ok s') {i : Nat} : Beyond k s (t :: ts) (i + 1) ↔ Beyond k s' ts i := by
  constructor
  · rintro ⟨u, before, after, hu, hkind, hdepth, hrun, hstep⟩
    rw [List.take_succ_cons, run_cons_of_step h] at hrun
    exact ⟨u, before, after, hu, hkind, hdepth, hrun, hstep⟩
  · rintro ⟨u, before, after, hu, hkind, hdepth, hrun, hstep⟩
    refine ⟨u, before, after, hu, hkind, hdepth, ?_, hstep⟩
    rw [List.take_succ_cons, run_cons_of_step h, hrun]

theorem not_beyond_of_error (h : s.step none t = .error e) {i : Nat} : ¬ Beyond k s (t :: ts) i := by
  rintro ⟨u, before, after, hu, _, _, hrun, hstep⟩
  cases i with
  | zero =>
    obtain rfl := Option.some.inj hu
    obtain rfl := Except.ok.inj hrun
    rw [h] at hstep
    cases hstep
  | succ i =>
    rw [List.take_succ_cons, run, h] at hrun
    cases hrun

theorem run_some_cases (k : Nat) (s : State) (ts : List Token) :
    (run (some k) s ts = .error .tooDeep ∧ ∃ i, Beyond k s ts i) ∨
    (run (some k) s ts = run none s ts ∧ ∀ i, ¬ Beyond k s ts i) := by
  induction ts generalizing s with
  | nil =>
    refine .inr ⟨rfl, ?_⟩
    rintro i ⟨t, _, _, ht, _⟩
    cases ht
  | cons t ts ih =>
    cases hstep : s.step none t with
    | error e =>
      refine .inr ⟨?_, fun i => not_beyond_of_error hstep⟩
      rw [run, run, hstep, step_some_of_error hstep]
    | ok s' =>
      rw [run, run, hstep, step_some hstep]
      by_cases hdeep : t.kind = .parenOpen ∧ k ≤ s.outer.length
      · rw [if_pos hdeep]
        exact .inl ⟨rfl, 0, (beyond_zero_iff hstep).mpr hdeep⟩
      · rw [if_neg hdeep]
        rcases ih s' with ⟨hrun, i, hi⟩ | ⟨hrun, hnone⟩
        · exact .inl ⟨hrun, i + 1, (beyond_succ_iff hstep).mpr hi⟩
        · refine .inr ⟨hrun, fun i => ?_⟩
          cases i with
          | zero => rwa [beyond_zero_iff hstep]
          | succ i =>
            rw [beyond_succ_iff hstep]
            exact hnone i

theorem length_outer_eq_openCount (h : run none .initial ts = .ok s) : s.outer.length = openCount (ts.map (·.kind)) := by
  have hstart : Opens (State.initial.outer.map (·.1)) [] := .nil .nil
  have hopens := opens_run hstart h
  rw [List.nil_append] at hopens
  rw [hopens.openCount_eq, List.length_map]

end Parser.State

variable {stop p i r : Nat} {tokens : List Token}

inductive EndsAt (stop : Nat) (tokens : List Token) : Nat → Prop where
  | read {parsed : Parsed} : parseTokens none stop tokens = .ok parsed → EndsAt stop tokens tokens.length
  | fault {p : Nat} {position : Span} {cause : SyntaxError} :
      parseTokens none stop tokens = .error (.malformed position cause) →
      FirstFault stop tokens p (cause.diagnostic position) → EndsAt stop tokens p

theorem exists_endsAt (stop : Nat) (tokens : List Token) : ∃ p, EndsAt stop tokens p := by
  cases h : parseTokens none stop tokens with
  | ok parsed => exact ⟨_, .read h⟩
  | error e =>
    obtain ⟨p, position, cause, rfl, hfault⟩ := exists_firstFault h
    exact ⟨p, .fault h hfault⟩

theorem FirstFault.reach {d : Diagnostic} (h : FirstFault stop tokens p d) : Reach (tokens.map (·.kind)) p where
  le_length := by simpa using h.le_length
  viable := by simpa using h.viable
  not_viable hp := by simpa using h.not_viable (by simpa using hp)

theorem EndsAt.reach (h : EndsAt stop tokens p) : Reach (tokens.map (·.kind)) p := by
  cases h with
  | read hparsed =>
    refine ⟨by simp, ⟨[], ?_⟩, fun hlt => absurd hlt (by simp)⟩
    rw [List.append_nil, List.take_of_length_le (by simp)]
    exact derives_of_parseTokens hparsed
  | fault _ hfault => exact hfault.reach

structure OpensWithin (r : Nat) (ks : List TokenKind) (i : Nat) : Prop where
  kind_eq : ks[i]? = some .parenOpen
  le_openCount : r ≤ openCount (ks.take i)

theorem Reach.beyond_iff (h : Reach (tokens.map (·.kind)) p) :
    Beyond r .initial tokens i ↔ i < p ∧ OpensWithin r (tokens.map (·.kind)) i := by
  rw [h.lt_iff]
  constructor
  · rintro ⟨t, before, after, ht, hkind, hdepth, hrun, hstep⟩
    have hi := (List.getElem?_eq_some_iff.mp ht).1
    rw [length_outer_eq_openCount hrun, List.map_take] at hdepth
    have hnext : run none .initial (tokens.take (i + 1)) = .ok after := by
      rw [List.take_add_one, ht, Option.toList_some, run_append_of_run hrun, run_cons_of_step hstep, run]
    rw [← List.map_take]
    exact ⟨⟨by simpa using hi, exists_run_iff_viable.mp ⟨after, hnext⟩⟩, by simp [ht, hkind], hdepth⟩
  · rintro ⟨⟨hi, hviable⟩, hkind, hdepth⟩
    obtain ⟨t, ht, hopen⟩ : ∃ t, tokens[i]? = some t ∧ t.kind = .parenOpen := by simpa using hkind
    rw [← List.map_take] at hviable hdepth
    obtain ⟨after, hnext⟩ := exists_run_of_viable hviable
    rw [List.take_add_one, ht, Option.toList_some] at hnext
    obtain ⟨before, hrun, hstep⟩ := exists_run_of_run_concat hnext
    rw [← length_outer_eq_openCount hrun] at hdepth
    exact ⟨t, before, after, ht, hopen, hdepth, hrun, hstep⟩

theorem parseTokens_some_cases (r stop : Nat) (h : Reach (tokens.map (·.kind)) p) :
    (parseTokens (some r) stop tokens = .error .tooDeep ∧ ∃ i < p, OpensWithin r (tokens.map (·.kind)) i) ∨
    (parseTokens (some r) stop tokens = parseTokens none stop tokens ∧
      ¬ ∃ i < p, OpensWithin r (tokens.map (·.kind)) i) := by
  rcases run_some_cases r .initial tokens with ⟨hrun, i, hi⟩ | ⟨hrun, hnone⟩
  · refine .inl ⟨?_, i, h.beyond_iff.mp hi⟩
    rw [parseTokens, hrun]
  · refine .inr ⟨?_, ?_⟩
    · rw [parseTokens, parseTokens, hrun]
    · rintro ⟨i, hi⟩
      exact hnone i (h.beyond_iff.mpr hi)

theorem parseTokens_none_ne_tooDeep (stop : Nat) (tokens : List Token) :
    parseTokens none stop tokens ≠ .error .tooDeep := by
  rcases parseTokens_ok_or_malformed stop tokens with ⟨parsed, h⟩ | ⟨position, cause, h⟩ <;> simp [h]

theorem parseTokens_some_eq_tooDeep_iff (h : Reach (tokens.map (·.kind)) p) :
    parseTokens (some r) stop tokens = .error .tooDeep ↔ ∃ i < p, OpensWithin r (tokens.map (·.kind)) i := by
  rcases parseTokens_some_cases r stop h with ⟨hdeep, hwithin⟩ | ⟨hsame, hnone⟩
  · exact iff_of_true hdeep hwithin
  · refine iff_of_false ?_ hnone
    rw [hsame]
    exact parseTokens_none_ne_tooDeep stop tokens

theorem exists_parseTokens_some_iff {branches : List (Expr Mention)} (h : Reads (.alternation branches) tokens) :
    (∃ parsed, parseTokens (some r) stop tokens = .ok parsed) ↔ Expr.depthAll branches ≤ r := by
  rw [parseTokens_some_of_reads r stop h, parseTokens_of_reads h]
  by_cases hdepth : Expr.depthAll branches ≤ r
  · simp [hdepth]
  · simp [hdepth]

theorem depth_limit_exact (r stop : Nat) (tokens : List Token) : ∃ p, (∀ q, EndsAt stop tokens q ↔ q = p) ∧
    (parseTokens (some r) stop tokens = .error .tooDeep ↔ ∃ i < p, OpensWithin r (tokens.map (·.kind)) i) ∧
    (parseTokens (some r) stop tokens ≠ .error .tooDeep →
      parseTokens (some r) stop tokens = parseTokens none stop tokens) ∧
    (∀ branches, Reads (.alternation branches) tokens →
      ((∃ parsed, parseTokens (some r) stop tokens = .ok parsed) ↔ Expr.depthAll branches ≤ r)) ∧
    ∀ limit source, stop = endOffset source → Descends limit source tokens := by
  obtain ⟨p, hp⟩ := exists_endsAt stop tokens
  refine ⟨p, fun q => ⟨fun hq => hq.reach.unique hp.reach, fun hq => hq ▸ hp⟩,
    parseTokens_some_eq_tooDeep_iff hp.reach, fun hdeep => ?_, fun _ => exists_parseTokens_some_iff,
    fun limit source _ => descends limit source tokens⟩
  rcases parseTokens_some_cases r stop hp.reach with ⟨h, _⟩ | ⟨h, _⟩
  · exact absurd h hdeep
  · exact h

end CallGrammar
