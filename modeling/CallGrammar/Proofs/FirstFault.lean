import CallGrammar.Diagnostic.Excerpt
import CallGrammar.Grammar
import CallGrammar.Proofs.OpenGroups
import CallGrammar.Proofs.Viable

namespace CallGrammar

open CallGrammar.Parser CallGrammar.Parser.State

def AfterColon (tokens : List Token) (p : Nat) : Prop := 0 < p ∧ ∃ t, tokens[p - 1]? = some t ∧ t.kind = .colon

def Superfluous (tokens : List Token) (p : Nat) : Prop :=
  Derives .alternation ((tokens.take p).map (·.kind)) ∧ ∃ t, tokens[p]? = some t ∧ t.kind = .parenClose

def Unfinished (tokens : List Token) (p : Nat) : Prop :=
  p = tokens.length ∧ ∃ n, 0 < n ∧ Derives .alternation (tokens.map (·.kind) ++ List.replicate n .parenClose)

structure Tells (kind : DiagnosticKind) (afterColon superfluous unfinished : Prop) : Prop where
  expectedAlias_iff : kind = .expectedAlias ↔ afterColon
  trailingInput_iff : kind = .trailingInput ↔ superfluous
  unclosedGroup_iff : kind = .unclosedGroup ↔ unfinished
  expectedTerm_iff : kind = .expectedTerm ↔ ¬ afterColon ∧ ¬ superfluous ∧ ¬ unfinished

namespace Tells

variable {A S U : Prop}

theorem expectedAlias (hA : A) (hS : ¬ S) (hU : ¬ U) : Tells .expectedAlias A S U := by constructor <;> simp [hA, hS, hU]

theorem trailingInput (hA : ¬ A) (hS : S) (hU : ¬ U) : Tells .trailingInput A S U := by constructor <;> simp [hA, hS, hU]

theorem unclosedGroup (hA : ¬ A) (hS : ¬ S) (hU : U) : Tells .unclosedGroup A S U := by constructor <;> simp [hA, hS, hU]

theorem expectedTerm (hA : ¬ A) (hS : ¬ S) (hU : ¬ U) : Tells .expectedTerm A S U := by constructor <;> simp [hA, hS, hU]

theorem unique {k k' : DiagnosticKind} (h : Tells k A S U) (h' : Tells k' A S U) : k' = k := by
  cases k with
  | unclosedGroup => exact h'.unclosedGroup_iff.mpr (h.unclosedGroup_iff.mp rfl)
  | expectedTerm => exact h'.expectedTerm_iff.mpr (h.expectedTerm_iff.mp rfl)
  | expectedAlias => exact h'.expectedAlias_iff.mpr (h.expectedAlias_iff.mp rfl)
  | trailingInput => exact h'.trailingInput_iff.mpr (h.trailingInput_iff.mp rfl)

end Tells

structure FirstFault (stop : Nat) (tokens : List Token) (p : Nat) (d : Diagnostic) : Prop where
  le_length : p ≤ tokens.length
  span_eq : d.span = (tokens[p]?).elim (.point stop) (·.span)
  viable : Viable ((tokens.take p).map (·.kind))
  not_viable : p < tokens.length → ¬ Viable ((tokens.take (p + 1)).map (·.kind))
  not_derives : p = tokens.length → ¬ Derives .alternation (tokens.map (·.kind))
  tells : Tells d.kind (AfterColon tokens p) (Superfluous tokens p) (Unfinished tokens p)
  innermost : d.kind = .unclosedGroup → ∃ i t, tokens[i]? = some t ∧ InnermostOpen (tokens.map (·.kind)) i ∧
    d.related.map (·.span) = [t.span]
  related_mem {r : Related} : r ∈ d.related → ∃ t ∈ tokens, r.span = t.span

variable {stop p : Nat} {tokens ts : List Token} {t name : Token} {s s' : State} {e : ParseError} {limit : Option Nat}

namespace Parser.State

theorem pending_name_of_step (h : s.step limit t = .ok s') (hs' : s'.pending = .name name) : name = t := by
  rcases pending_of_step h with ⟨_, _, _, hpending⟩ | ⟨_, hpending | hpending | ⟨e, hpending⟩⟩ <;> rw [hpending] at hs'
  · cases hs'
  · cases hs'
  · exact (Pending.name.inj hs').symm
  · cases hs'

theorem pending_name_of_step_colon (h : s.step limit t = .ok s') (hs' : s'.pending = .colon name) :
    s.pending = .name name := by
  rcases pending_of_step h with ⟨_, hname, _, hpending⟩ | ⟨_, hpending | hpending | ⟨e, hpending⟩⟩ <;>
    rw [hpending] at hs'
  · rw [hname, Pending.colon.inj hs']
  · cases hs'
  · cases hs'
  · cases hs'

end Parser.State

theorem exists_last_step (h : run none .initial ts = .ok s) (hs : s.pending ≠ .nothing) :
    ∃ before t middle, ts = before ++ [t] ∧ run none .initial before = .ok middle ∧ middle.step none t = .ok s := by
  rcases List.eq_nil_or_concat ts with rfl | ⟨before, t, rfl⟩
  · obtain rfl := Except.ok.inj h
    exact absurd rfl hs
  · rw [List.concat_eq_append] at h ⊢
    obtain ⟨middle, hbefore, hstep⟩ := exists_run_of_run_concat h
    exact ⟨before, t, middle, rfl, hbefore, hstep⟩

theorem mem_of_pending_colon (h : run none .initial ts = .ok s) (hs : s.pending = .colon name) : name ∈ ts := by
  obtain ⟨before, c, middle, rfl, hbefore, hstep⟩ := exists_last_step h (by simp [hs])
  have hname := pending_name_of_step_colon hstep hs
  obtain ⟨_, t, _, rfl, _, hfirst⟩ := exists_last_step hbefore (by simp [hname])
  obtain rfl := pending_name_of_step hfirst hname
  simp

theorem afterColon_iff (hp : p ≤ tokens.length) :
    AfterColon tokens p ↔ ((tokens.take p).map (·.kind)).getLast? = some .colon := by
  rw [AfterColon, List.getLast?_map, List.getLast?_take]
  rcases Nat.eq_zero_or_pos p with rfl | hpos
  · simp
  · have hlt : p - 1 < tokens.length := by omega
    simp [Nat.ne_of_gt hpos, hpos, List.getElem?_eq_getElem hlt]

structure Stopped (tokens : List Token) (p : Nat) (s : State) : Prop where
  le_length : p ≤ tokens.length
  run : run none .initial (tokens.take p) = .ok s

namespace Stopped

theorem afterColon (h : Stopped tokens p s) : AfterColon tokens p ↔ ∃ name, s.pending = .colon name := by
  rw [afterColon_iff h.le_length, pending_colon_iff_getLast? h.run]

theorem superfluous (h : Stopped tokens p s) :
    Superfluous tokens p ↔ s.Complete ∧ ∃ t, tokens[p]? = some t ∧ t.kind = .parenClose := by
  rw [Superfluous, complete_iff_derives h.run]

theorem unfinished (h : Stopped tokens p s) : Unfinished tokens p ↔ p = tokens.length ∧ s.Closable := by
  rw [Unfinished]
  refine and_congr_right fun hp => ?_
  have hrun := h.run
  rw [hp, List.take_length] at hrun
  exact (closable_iff_derives hrun).symm

theorem viable (h : Stopped tokens p s) : Viable ((tokens.take p).map (·.kind)) := exists_run_iff_viable.mp ⟨s, h.run⟩

theorem not_viable (h : Stopped tokens p s) (ht : tokens[p]? = some t) (he : s.step none t = .error e) :
    ¬ Viable ((tokens.take (p + 1)).map (·.kind)) := by
  intro hviable
  obtain ⟨last, hlast⟩ := exists_run_of_viable hviable
  rw [List.take_add_one, ht, Option.toList_some] at hlast
  obtain ⟨middle, hmiddle, hstep⟩ := exists_run_of_run_concat hlast
  obtain rfl := Except.ok.inj (hmiddle.symm.trans h.run)
  rw [he] at hstep
  cases hstep

theorem not_derives (h : Stopped tokens p s) (hp : p = tokens.length) (hs : ¬ s.Complete) :
    ¬ Derives .alternation (tokens.map (·.kind)) := by
  have hrun := h.run
  rw [hp, List.take_length] at hrun
  rwa [← complete_iff_derives hrun]

end Stopped

theorem firstFault_of_step (h : Stopped tokens p s) (ht : tokens[p]? = some t) (he : s.step none t = .error e) :
    ∃ cause, e = .malformed t.span cause ∧ FirstFault stop tokens p (cause.diagnostic t.span) := by
  have hlt := (List.getElem?_eq_some_iff.mp ht).1
  have hunfinished : ¬ Unfinished tokens p := fun hu => Nat.ne_of_lt hlt hu.1
  have hspan : t.span = (tokens[p]?).elim (.point stop) (·.span) := by rw [ht]; rfl
  have hend : p = tokens.length → ¬ Derives .alternation (tokens.map (·.kind)) := fun hp => absurd hp (Nat.ne_of_lt hlt)
  rcases step_error he with ⟨name, hpending, rfl⟩ | ⟨hcomplete, hkind, rfl⟩ | ⟨hbetween, hkind, rfl⟩
  · refine ⟨_, rfl, hlt.le, hspan, h.viable, fun _ => h.not_viable ht he, hend, ?_, nofun, ?_⟩
    · refine .expectedAlias (h.afterColon.mpr ⟨name, hpending⟩) ?_ hunfinished
      rw [h.superfluous]
      exact fun hs => hs.1.between name hpending
    · intro r hr
      obtain rfl := List.mem_singleton.mp hr
      exact ⟨name, List.mem_of_mem_take (mem_of_pending_colon h.run hpending), rfl⟩
  · refine ⟨_, rfl, hlt.le, hspan, h.viable, fun _ => h.not_viable ht he, hend, ?_, nofun, nofun⟩
    refine .trailingInput ?_ (h.superfluous.mpr ⟨hcomplete, t, ht, hkind⟩) hunfinished
    rw [h.afterColon]
    rintro ⟨name, hpending⟩
    exact hcomplete.between name hpending
  · refine ⟨_, rfl, hlt.le, hspan, h.viable, fun _ => h.not_viable ht he, hend, ?_, nofun, nofun⟩
    refine .expectedTerm ?_ ?_ hunfinished
    · rw [h.afterColon]
      rintro ⟨name, hpending⟩
      exact hbetween name hpending
    · rw [h.superfluous]
      rintro ⟨hcomplete, t', ht', hclose⟩
      obtain rfl := Option.some.inj (ht'.symm.trans ht)
      exact hkind hclose hcomplete

theorem exists_innermostOpen {opened : Span} {b : Branches} {outer : List (Span × Branches)}
    (h : run none .initial ts = .ok s) (houter : s.settle.outer = (opened, b) :: outer) :
    ∃ i t, ts[i]? = some t ∧ t.span = opened ∧ InnermostOpen (ts.map (·.kind)) i := by
  have hstart : Opens (State.initial.outer.map (·.1)) [] := .nil .nil
  have hopens := opens_run hstart h
  rw [← outer_settle, houter] at hopens
  exact hopens.exists_innermostOpen

theorem firstFault_of_finish (h : Stopped tokens tokens.length s) (he : s.finish stop = .error e) :
    ∃ cause, e = .malformed (.point stop) cause ∧
      FirstFault stop tokens tokens.length (cause.diagnostic (.point stop)) := by
  have hrun : run none .initial tokens = .ok s := by simpa using h.run
  have hspan : Span.point stop = (tokens[tokens.length]?).elim (.point stop) (·.span) := by simp
  have hinside : tokens.length < tokens.length → ¬ Viable ((tokens.take (tokens.length + 1)).map (·.kind)) :=
    fun hlt => absurd hlt (Nat.lt_irrefl _)
  have hsuperfluous : ¬ Superfluous tokens tokens.length := by
    rintro ⟨_, t, ht, _⟩
    simp at ht
  rcases finish_cases s stop with ⟨name, hpending, hfinish⟩ | ⟨hbetween, hitems, hfinish⟩ | ⟨_, hfinish⟩ |
    ⟨hclosable, opened, b, outer, houter, hfinish⟩ <;> rw [hfinish] at he
  · obtain rfl := Except.error.inj he
    have hcomplete : ¬ s.Complete := fun hs => hs.between name hpending
    refine ⟨_, rfl, Nat.le_refl _, hspan, h.viable, hinside, fun hp => h.not_derives hp hcomplete, ?_, nofun, ?_⟩
    · refine .expectedAlias (h.afterColon.mpr ⟨name, hpending⟩) hsuperfluous ?_
      rw [h.unfinished]
      exact fun hu => hu.2.between name hpending
    · intro r hr
      obtain rfl := List.mem_singleton.mp hr
      exact ⟨name, mem_of_pending_colon hrun hpending, rfl⟩
  · obtain rfl := Except.error.inj he
    have hcomplete : ¬ s.Complete := fun hs => hs.items_ne_nil hitems
    refine ⟨_, rfl, Nat.le_refl _, hspan, h.viable, hinside, fun hp => h.not_derives hp hcomplete, ?_, nofun, nofun⟩
    refine .expectedTerm ?_ hsuperfluous ?_
    · rw [h.afterColon]
      rintro ⟨name, hpending⟩
      exact hbetween name hpending
    · rw [h.unfinished]
      exact fun hu => hu.2.items_ne_nil hitems
  · cases he
  · obtain rfl := Except.error.inj he
    have hcomplete : ¬ s.Complete := fun hs => hclosable.outer_ne_nil hs.outer_eq_nil
    obtain ⟨i, t, ht, rfl, hinnermost⟩ := exists_innermostOpen hrun houter
    refine ⟨_, rfl, Nat.le_refl _, hspan, h.viable, hinside, fun hp => h.not_derives hp hcomplete, ?_,
      fun _ => ⟨i, t, ht, hinnermost, rfl⟩, ?_⟩
    · refine .unclosedGroup ?_ hsuperfluous (h.unfinished.mpr ⟨rfl, hclosable⟩)
      rw [h.afterColon]
      rintro ⟨name, hpending⟩
      exact hclosable.between name hpending
    · intro r hr
      obtain rfl := List.mem_singleton.mp hr
      exact ⟨t, List.mem_of_getElem? ht, rfl⟩

theorem exists_firstFault (h : parseTokens none stop tokens = .error e) :
    ∃ p position cause, e = .malformed position cause ∧ FirstFault stop tokens p (cause.diagnostic position) := by
  rw [parseTokens] at h
  split at h
  · rename_i s hrun
    have hstopped : Stopped tokens tokens.length s := ⟨Nat.le_refl _, by rwa [List.take_length]⟩
    obtain ⟨cause, rfl, hfault⟩ := firstFault_of_finish hstopped h
    exact ⟨_, _, cause, rfl, hfault⟩
  · rename_i hrun
    obtain rfl := Except.error.inj h
    obtain ⟨p, t, s, ht, hs, he⟩ := exists_step_of_run_error hrun
    have hstopped : Stopped tokens p s := ⟨(List.getElem?_eq_some_iff.mp ht).1.le, hs⟩
    obtain ⟨cause, rfl, hfault⟩ := firstFault_of_step hstopped ht he
    exact ⟨p, _, cause, rfl, hfault⟩

theorem FirstFault.kind_eq {stop' : Nat} {us : List Token} {d d' : Diagnostic} (h : FirstFault stop ts p d)
    (h' : FirstFault stop' us p d') (hkinds : us.map (·.kind) = ts.map (·.kind)) : d'.kind = d.kind := by
  have hat : ∀ (kind : TokenKind) (j : Nat),
      (∃ t, us[j]? = some t ∧ t.kind = kind) ↔ ∃ t, ts[j]? = some t ∧ t.kind = kind := by
    intro kind j
    rw [← Option.map_eq_some_iff, ← Option.map_eq_some_iff, ← List.getElem?_map, ← List.getElem?_map, hkinds]
  have hlength : us.length = ts.length := by simpa using congrArg List.length hkinds
  refine h.tells.unique ?_
  have htells := h'.tells
  rwa [AfterColon, Superfluous, Unfinished, hat, hat, List.map_take, hkinds, hlength, ← List.map_take] at htells

theorem Mark.widen_of_lt {size : Nat} {s : Span} (h : s.start < s.stop) : widen size s = s := by
  rw [widen, if_neg (Nat.ne_of_lt h)]

theorem Mark.widen_point (size : Nat) : widen size (.point size) = .point size := by
  simp [widen, Span.point]

theorem FirstFault.inText {source : String} {d : Diagnostic} {shown : Span} (hsize : source.utf8ByteSize < UInt32.size)
    (h : FirstFault source.utf8ByteSize (lex source) p d) (hshown : shown ∈ d.span :: d.related.map (·.span)) :
    shown.InText source ∧ (Mark.widen source.utf8ByteSize shown).InText source := by
  have htoken : ∀ t ∈ lex source, t.span.InText source ∧ (Mark.widen source.utf8ByteSize t.span).InText source := by
    intro t ht
    have hstands := standsIn_of_mem_lex hsize ht
    rw [Mark.widen_of_lt hstands.start_lt]
    exact ⟨hstands.inText, hstands.inText⟩
  rcases List.mem_cons.mp hshown with rfl | hshown
  · rw [h.span_eq]
    cases ht : (lex source)[p]? with
    | none =>
      simp only [Option.elim_none, Mark.widen_point]
      exact ⟨Span.inText_point source, Span.inText_point source⟩
    | some t => exact htoken t (List.mem_of_getElem? ht)
  · obtain ⟨r, hr, rfl⟩ := List.mem_map.mp hshown
    obtain ⟨t, ht, hspan⟩ := h.related_mem hr
    rw [hspan]
    exact htoken t ht

theorem exists_report_of_parseTokens_error (h : parseTokens none stop tokens = .error e) :
    ∃ d p, e.compileError = .malformed [d] ∧ FirstFault stop tokens p d ∧
      (∀ source, stop = endOffset source → Descends none source tokens) ∧
      ∀ source, source.utf8ByteSize < UInt32.size → tokens = lex source → stop = source.utf8ByteSize →
        ∀ shown ∈ d.span :: d.related.map (·.span), shown.InText source ∧ (Mark.widen stop shown).InText source := by
  obtain ⟨p, position, cause, rfl, hfault⟩ := exists_firstFault h
  refine ⟨cause.diagnostic position, p, rfl, hfault, fun source _ => descends none source tokens, ?_⟩
  rintro source hsize rfl rfl shown hshown
  exact hfault.inText hsize hshown

theorem report_of_nested_groups :
    parseTokens none 10 (lex "x (a|(é c") = .error (.malformed (.point 10) (.unclosedGroup ⟨5, 6⟩)) ∧
    ∃ d p, (ParseError.malformed (.point 10) (.unclosedGroup ⟨5, 6⟩)).compileError = .malformed [d] ∧
      FirstFault 10 (lex "x (a|(é c") p d ∧
      parseTokens? none "x (a|(é c" (lex "x (a|(é c") = some (.error (.malformed (.point 10) (.unclosedGroup ⟨5, 6⟩))) ∧
      ∀ shown ∈ d.span :: d.related.map (·.span),
        shown.InText "x (a|(é c" ∧ (Mark.widen 10 shown).InText "x (a|(é c" := by
  have h : parseTokens none 10 (lex "x (a|(é c") = .error (.malformed (.point 10) (.unclosedGroup ⟨5, 6⟩)) := by
    decide +kernel
  have hsize : "x (a|(é c".utf8ByteSize < UInt32.size := by decide +kernel
  have hstop : 10 = endOffset "x (a|(é c" := by decide +kernel
  obtain ⟨d, p, hreport, hfault, hdescends, hplaces⟩ := exists_report_of_parseTokens_error h
  refine ⟨h, d, p, hreport, hfault, ?_, hplaces _ hsize rfl (by decide +kernel)⟩
  rw [(hdescends _ hstop).eq_some (located_lex hsize), ← hstop, h]

end CallGrammar
