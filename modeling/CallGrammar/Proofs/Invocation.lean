import CallGrammar.Command.Run
import CallGrammar.Proofs.Compiled

namespace CallGrammar

theorem Writers.log_off {records : List LogRecord} (w : Writers) (h : ∀ r ∈ records, r.level ≠ .off) :
    w.log .off records = "" := by
  have hnone : LogRecord.upTo .off records = [] := by
    rw [LogRecord.upTo, List.filter_eq_nil_iff]
    intro r hr
    cases hlevel : r.level <;> first | exact absurd hlevel (h r hr) | decide
  rw [Writers.log, hnone]
  rfl

theorem Event.level_of_record? {e : Event} {r : LogRecord} (h : e.record? = some r) : r.level = .trace := by
  cases e with
  | called | moved | rejected => exact Option.some.inj h ▸ rfl
  | resting => cases h
  | built state accepted => cases accepted <;> exact Option.some.inj h ▸ rfl

theorem Request.level_of_mem_answer {w : Writers} {g : Grammar} {label : String} {colored : Bool} {r : LogRecord}
    (i : Request) (h : r ∈ (i.answer w g label colored).2) : r.level ≠ .off := by
  cases i with
  | check =>
    rw [List.mem_singleton.mp h]
    exact nofun
  | ast | dump => exact absurd h List.not_mem_nil
  | exec | trace =>
    obtain ⟨e, _, he⟩ := List.mem_filterMap.mp h
    rw [Event.level_of_record? he]
    decide

namespace Grammar

variable {limits : Limits} {source : String}

theorem blueprintLogged_snd (limits : Limits) (source : String) :
    (blueprintLogged limits source).2 = compile limits source := by
  rw [blueprintLogged, compile]
  rcases compileLogged limits source with ⟨records, _ | _⟩ <;> rfl

theorem level_of_mem_compileLogged {r : LogRecord} (h : r ∈ (compileLogged limits source).1) : r.level = .debug := by
  rw [compileLogged] at h
  split at h
  · rw [List.mem_singleton.mp h]
    rfl
  · have hdebug : ∀ texts : List String, ∀ r ∈ texts.map debug, r.level = .debug := by simp [debug]
    simp only at h
    split at h
    · exact hdebug [_, _, _] r h
    · exact hdebug [_, _, _, _] r h

theorem level_of_mem_blueprintLogged {r : LogRecord} (h : r ∈ (blueprintLogged limits source).1) : r.level = .debug := by
  rw [blueprintLogged] at h
  have hcompile := @level_of_mem_compileLogged limits source r
  rcases hlogged : compileLogged limits source with ⟨records, _ | g⟩ <;> rw [hlogged] at h hcompile
  · exact hcompile h
  · rcases List.mem_append.mp h with hrecords | hready
    · exact hcompile hrecords
    · rw [List.mem_singleton.mp hready]

end Grammar

namespace Outcome

theorem addLog_off {o : Outcome} {records : List LogRecord} (w : Writers) (h : ∀ r ∈ records, r.level ≠ .off) :
    o.addLog w .off records = o := by
  rw [addLog, w.log_off h, String.empty_append]

theorem ofCompileError_failed (w : Writers) (colored : Bool) (label source : String) (e : CompileError) :
    (ofCompileError w colored label source e).code = 1 ∧ (ofCompileError w colored label source e).stdout = "" := by
  cases e <;> exact ⟨rfl, rfl⟩

end Outcome

namespace Origin

variable {w : Writers} {reader : Reader} {source : String} {origin : Origin}

theorem read_eq_ok_iff : origin.read w reader = .ok source ↔
    origin = .inline source ∨ (∀ text, origin ≠ .inline text) ∧ reader origin = .ok source := by
  cases origin with
  | inline text => simp [read]
  | stdin => cases h : reader .stdin <;> simp [read, h, Except.mapError]
  | file path => cases h : reader (.file path) <;> simp [read, h, Except.mapError]

theorem reader_of_read (hne : ∀ text, origin ≠ .inline text) (h : origin.read w reader = .ok source) :
    reader origin = .ok source :=
  (read_eq_ok_iff.mp h).resolve_left (hne source) |>.2

end Origin

namespace Settings

variable {s : Settings} {w : Writers} {reader : Reader} {source : String} {g : Grammar}

inductive Loads (s : Settings) (reader : Reader) : String → Prop where
  | inline {text : String} : s.text = some text → Loads s reader text
  | stdin {text : String} : s.text = none → s.path = some "-" → reader .stdin = .ok text → Loads s reader text
  | file {path text : String} : s.text = none → s.path = some path → path ≠ "-" → reader (.file path) = .ok text →
      Loads s reader text

structure Compiles (s : Settings) (reader : Reader) (source : String) (g : Grammar) : Prop where
  loads : s.Loads reader source
  compile_eq : Grammar.compile .standard source = .ok g

def tokens (s : Settings) : List CallToken :=
  ((if s.text.isSome then s.path.toList else []) ++ s.calls).map CallToken.parse

theorem map_parse_shifted (s : Settings) : s.shifted.2.map CallToken.parse = s.tokens := by
  rw [tokens, shifted]
  cases s.text <;> cases s.path <;> rfl

theorem origin?_invocation (s outer : Settings) (c : CommandName) : (s.invocation outer c).origin? =
    match s.text, s.path with
    | some text, _ => some (.inline text)
    | none, path => path.map fun path => if path = "-" then .stdin else .file path := by
  rw [Invocation.origin?, invocation, shifted]
  cases s.text <;> cases s.path <;> cases c.takesCalls <;> rfl

theorem loads_iff (s outer : Settings) (c : CommandName) (w : Writers) (reader : Reader) (source : String) :
    s.Loads reader source ↔
      ∃ origin, (s.invocation outer c).origin? = some origin ∧ origin.read w reader = .ok source := by
  rw [origin?_invocation]
  constructor
  · intro h
    cases h with
    | inline htext => exact ⟨.inline source, by rw [htext], rfl⟩
    | stdin htext hpath hread =>
      exact ⟨.stdin, by simp [htext, hpath], Origin.read_eq_ok_iff.mpr (.inr ⟨by simp, hread⟩)⟩
    | @file path _ htext hpath hne hread =>
      exact ⟨.file path, by simp [htext, hpath, hne], Origin.read_eq_ok_iff.mpr (.inr ⟨by simp, hread⟩)⟩
  · rintro ⟨origin, horigin, hread⟩
    cases htext : s.text with
    | some text =>
      rw [htext] at horigin
      obtain rfl := Option.some.inj horigin
      obtain rfl := Except.ok.inj hread
      exact .inline htext
    | none =>
      rw [htext] at horigin
      obtain ⟨path, hpath, rfl⟩ := Option.map_eq_some_iff.mp horigin
      split at hread
      · rename_i hdash
        exact .stdin htext (hdash ▸ hpath) (Origin.reader_of_read (by simp) hread)
      · rename_i hne
        exact .file htext hpath hne (Origin.reader_of_read (by simp) hread)

theorem Compiles.exists_prepared (h : s.Compiles reader source g) (outer : Settings) (c : CommandName)
    (w : Writers) (isTerminal : Bool) : ∃ p, (s.invocation outer c).prepare w isTerminal reader = .ok p ∧ p.grammar = g ∧
      ∀ r ∈ p.records, r.level ≠ .off := by
  obtain ⟨origin, horigin, hread⟩ := (loads_iff s outer c w reader source).mp h.loads
  have hresult := Grammar.blueprintLogged_snd .standard source
  have hlevel := @Grammar.level_of_mem_blueprintLogged .standard source
  rw [h.compile_eq] at hresult
  rcases hlogged : Grammar.blueprintLogged .standard source with ⟨records, result⟩
  rw [hlogged] at hresult hlevel
  obtain rfl : result = .ok g := hresult
  refine ⟨⟨origin.label, records, g⟩, ?_, rfl, fun r hr => ?_⟩
  · rw [Invocation.prepare, horigin]
    simp only [hread, hlogged]
  · rw [hlevel hr]
    decide

theorem Compiles.exists_run_eq (h : s.Compiles reader source g) (outer : Settings) (c : CommandName)
    (w : Writers) (isTerminal : Bool) : ∃ label records, (∀ r ∈ records, r.level ≠ .off) ∧
      (s.invocation outer c).runWith w isTerminal reader = ((s.request c).answer w g label
        ((s.invocation outer c).color.isColored isTerminal)).1.addLog w (s.invocation outer c).log records := by
  obtain ⟨p, hprepare, rfl, hlevel⟩ := h.exists_prepared outer c w isTerminal
  refine ⟨p.label, _, ?_, by rw [Invocation.runWith, hprepare]; rfl⟩
  exact List.forall_mem_append.mpr ⟨hlevel, fun _ => Request.level_of_mem_answer (s.request c)⟩

theorem exists_failure (h : ∀ source g, ¬ s.Compiles reader source g) (outer : Settings) (c : CommandName)
    (w : Writers) (isTerminal : Bool) :
    ∃ o, (s.invocation outer c).prepare w isTerminal reader = .error o ∧ o.code = 1 ∧ o.stdout = "" := by
  rw [Invocation.prepare]
  cases horigin : (s.invocation outer c).origin? with
  | none => exact ⟨_, rfl, rfl, rfl⟩
  | some origin =>
    cases hread : origin.read w reader with
    | error message => exact ⟨.ofError message, by simp only [hread], rfl, rfl⟩
    | ok source =>
      have hloads : s.Loads reader source := (loads_iff s outer c w reader source).mpr ⟨origin, horigin, hread⟩
      have hresult := Grammar.blueprintLogged_snd .standard source
      rcases hlogged : Grammar.blueprintLogged .standard source with ⟨records, e | g⟩
      · have hfailed :=
          Outcome.ofCompileError_failed w ((s.invocation outer c).color.isColored isTerminal) origin.label source e
        exact ⟨.addLog w _ (s.invocation outer c).log records, by simp only [hread, hlogged], hfailed⟩
      · rw [hlogged] at hresult
        exact absurd ⟨hloads, hresult.symm⟩ (h source g)

end Settings

end CallGrammar
