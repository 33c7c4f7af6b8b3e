import CallGrammar.Proofs.Colours
import CallGrammar.Proofs.Invocation
import CallGrammar.Proofs.Json
import CallGrammar.Proofs.Liveness
import CallGrammar.Proofs.Walk

namespace CallGrammar

open CallToken (operation script)

variable {g : Grammar} {source : String} {ts : List CallToken} {build : Bool} {e : DispatchError}

namespace Grammar

def chainAfter (g : Grammar) (ts : List CallToken) : RecordingChain := (g.recordingChain.run (ts.map operation)).1

def report (g : Grammar) (ts : List CallToken) (build : Bool) : Report :=
  (g.chainAfter ts).report build (g.chainAfter ts).object

def Refuses (g : Grammar) (ts : List CallToken) (build : Bool) : Prop :=
  (∃ a ∈ g.recordingChain.answers (ts.map operation), a.isRefusal = true) ∨
  (∀ a ∈ g.recordingChain.answers (ts.map operation), a.isRefusal = false) ∧ build = true ∧
    (g.chainAfter ts).isFinal = false

theorem firstError?_eq_none_iff_forall (g : Grammar) (ops : List (Operation (List String))) :
    g.recordingChain.firstError? ops = none ↔ ∀ a ∈ g.recordingChain.answers ops, a.isRefusal = false := by
  rw [Chain.firstError?_eq_none_iff]
  refine forall₂_congr fun a ha => ?_
  rw [RecordingChain.isRefusal_of_mem_answers rfl ha, Option.isSome_eq_false_iff, Option.isNone_iff_eq_none]

theorem not_refuses_iff (g : Grammar) (ts : List CallToken) (build : Bool) :
    ¬ g.Refuses ts build ↔ g.recordingChain.firstError? (script ts build) = none := by
  have hsome : (∃ a ∈ g.recordingChain.answers (ts.map operation), a.isRefusal = true) ↔
      ¬ ∀ a ∈ g.recordingChain.answers (ts.map operation), a.isRefusal = false := by simp
  rw [RecordingChain.firstError?_script_eq_none_iff, firstError?_eq_none_iff_forall, Refuses, hsome, ← chainAfter,
    ← Bool.not_eq_true (g.chainAfter ts).isFinal]
  tauto

theorem refuses_iff (g : Grammar) (ts : List CallToken) (build : Bool) :
    g.Refuses ts build ↔ ∃ e, g.recordingChain.firstError? (script ts build) = some e := by
  rw [← not_iff_not, not_refuses_iff, ← Option.isSome_iff_exists, Bool.not_eq_true, Option.isSome_eq_false_iff,
    Option.isNone_iff_eq_none]

theorem walk_of_error (h : g.recordingChain.firstError? (script ts build) = some e) :
    ∃ c, g.recordingChain.walk ts build =
      ⟨.error e, c, (g.recordingChain.run (g.recordingChain.attempted (script ts build))).2⟩ := by
  rw [RecordingChain.walk_eq rfl, h]
  exact ⟨_, rfl⟩

theorem walk_of_none (h : g.recordingChain.firstError? (script ts build) = none) : g.recordingChain.walk ts build =
    ⟨.ok (g.chainAfter ts).object, g.chainAfter ts,
      (g.recordingChain.run (g.recordingChain.attempted (script ts build))).2⟩ := by
  rw [RecordingChain.walk_eq rfl, h, Chain.attempted_of_none h, RecordingChain.run_script rfl]
  rfl

theorem ofExec_of_error (h : g.recordingChain.firstError? (script ts build) = some e) (w : Writers) (compact : Bool) :
    Outcome.ofExec w (g.recordingChain.walk ts build) build compact = ⟨2, "", e.line⟩ := by
  obtain ⟨c, hwalk⟩ := walk_of_error h
  rw [hwalk]
  rfl

theorem ofExec_of_none (h : g.recordingChain.firstError? (script ts build) = none) (w : Writers) (compact : Bool) :
    Outcome.ofExec w (g.recordingChain.walk ts build) build compact =
      Outcome.ofJson w compact (g.report ts build).json := by
  rw [walk_of_none h]
  rfl

end Grammar

structure Report.Tells (r : Report) (source : String) (g : Grammar) (ts : List CallToken) (build : Bool) : Prop where
  answered : List.Forall₂ RecordedCall.Answers r.calls ts
  path : ∃ ids, g.terms.Spells ids (r.calls.map (·.term)) ∧ g.dfa.run ids = some r.state
  accepting_iff : r.accepting = true ↔ Denotes source (r.calls.map (·.term))
  nodup_expected : r.expected.Nodup
  mem_expected_iff (name : String) : name ∈ r.expected ↔
    ∃ id j t, (id, j) ∈ g.dfa.edges r.state ∧ g.terms.get? id = some t ∧ t.callable = name
  built_eq : r.built = build
  accepting_of_build : build = true → r.accepting = true

theorem Recorded.tells {c : RecordingChain} (h : Recorded g ts c) (hg : Grammar.compile .standard source = .ok g)
    (hfinal : build = true → c.isFinal = true) : (c.report build c.object).Tells source g ts build where
  answered := h.answered
  path := h.follows.path
  accepting_iff := (isFinal_iff_matches (Grammar.compiled_of_compile hg) h.follows).trans (Grammar.matches_iff_denotes hg _)
  nodup_expected := nodup_eraseDups _
  mem_expected_iff _ := (h.follows.within (Grammar.compiled_of_compile hg)).mem_expected_iff
  built_eq := rfl
  accepting_of_build := hfinal

theorem tells_of_not_refuses (hg : Grammar.compile .standard source = .ok g) (h : ¬ g.Refuses ts build) :
    (g.report ts build).Tells source g ts build := by
  obtain ⟨hcalls, hfinal⟩ :=
    (RecordingChain.firstError?_script_eq_none_iff _ ts build).mp ((g.not_refuses_iff ts build).mp h)
  exact Recorded.tells ((Recorded.start g).run hcalls) hg hfinal

def Json.member? (key : String) : Json → Option Json
  | .obj members => members.lookup key
  | _ => none

structure RecordedCall.ShownBy (c : RecordedCall) (j : Json) : Prop where
  name_eq : (j.member? "term").bind (·.member? "name") = some (.str c.term.name)
  alias_eq : (j.member? "term").bind (·.member? "alias") = some (.str c.term.callable)
  args_eq : j.member? "args" = some (.arr (c.args.map .str))

structure Report.ShownBy (r : Report) (j : Json) : Prop where
  state_eq : j.member? "state" = some (.str (Dfa.stateLabel r.state))
  accepting_eq : j.member? "accepting" = some (.bool r.accepting)
  built_eq : j.member? "built" = some (.bool r.built)
  expected_eq : j.member? "expected" = some (.arr (r.expected.map .str))
  calls : ∃ js, j.member? "calls" = some (.arr js) ∧ List.Forall₂ RecordedCall.ShownBy r.calls js

theorem Json.str_injective : Function.Injective Json.str := fun _ _ h => Json.str.inj h

theorem RecordedCall.shownBy_json (c : RecordedCall) : c.ShownBy c.json := ⟨rfl, rfl, rfl⟩

theorem Report.shownBy_json (r : Report) : r.ShownBy r.json where
  state_eq := rfl
  accepting_eq := rfl
  built_eq := rfl
  expected_eq := rfl
  calls := ⟨_, rfl, by
    rw [List.forall₂_map_right_iff, List.forall₂_same]
    exact fun c _ => c.shownBy_json⟩

theorem RecordedCall.ShownBy.unique {c c' : RecordedCall} {j : Json} (h : c.ShownBy j) (h' : c'.ShownBy j) : c = c' := by
  obtain ⟨⟨name, callable⟩, args⟩ := c
  obtain ⟨⟨name', callable'⟩, args'⟩ := c'
  have hname := h.name_eq.symm.trans h'.name_eq
  have halias := h.alias_eq.symm.trans h'.alias_eq
  have hargs := h.args_eq.symm.trans h'.args_eq
  simp only [Option.some.injEq, Json.str.injEq, Json.arr.injEq, List.map_inj_right Json.str_injective] at hname halias hargs
  rw [hname, halias, hargs]

theorem Report.ShownBy.unique {r r' : Report} {j : Json} (h : r.ShownBy j) (h' : r'.ShownBy j) : r = r' := by
  have hstate := h.state_eq.symm.trans h'.state_eq
  have haccepting := h.accepting_eq.symm.trans h'.accepting_eq
  have hbuilt := h.built_eq.symm.trans h'.built_eq
  have hexpected := h.expected_eq.symm.trans h'.expected_eq
  obtain ⟨js, hjs, hcalls⟩ := h.calls
  obtain ⟨js', hjs', hcalls'⟩ := h'.calls
  obtain rfl : js = js' := Json.arr.inj (Option.some.inj (hjs.symm.trans hjs'))
  have hsame : r.calls = r'.calls :=
    List.left_unique_forall₂' (fun _ _ _ h h' => h.unique h') hcalls hcalls'
  obtain ⟨state, accepting, built, expected, calls⟩ := r
  obtain ⟨state', accepting', built', expected', calls'⟩ := r'
  simp only [Option.some.injEq, Json.str.injEq, Json.bool.injEq, Json.arr.injEq,
    List.map_inj_right Json.str_injective] at hstate haccepting hbuilt hexpected hsame
  rw [Dfa.stateLabel_inj hstate, haccepting, hbuilt, hexpected, hsame]

def Writers.Serializes (w : Writers) : Prop :=
  ∀ (isCompact : Bool) (r : Report), ∃ text, w.json isCompact r.json = .ok text

structure Writers.Returns (w : Writers) (read : String → Option Json) : Prop where
  read_report (isCompact : Bool) (r : Report) : ∃ text, w.json isCompact r.json = .ok text ∧ read text = some r.json

theorem Writers.Returns.serializes {w : Writers} {read : String → Option Json} (h : w.Returns read) : w.Serializes :=
  fun isCompact r => (h.read_report isCompact r).imp fun _ h => h.1

theorem Writers.returns_standard : Writers.standard.Returns Json.read? where
  read_report isCompact r := ⟨_, rfl, Json.read?_render isCompact r.json⟩

structure Settings.Executed (s : Settings) (read : String → Option Json) (reader : Reader) (o : Outcome) : Prop where
  failed_iff : o.code = 1 ∧ o.stdout = "" ↔ ¬ ∃ source g, s.Compiles reader source g
  refused_iff : o.code = 2 ∧ o.stdout = "" ↔
    ∃ source g, s.Compiles reader source g ∧ g.Refuses s.tokens (s.has .build)
  reported {source : String} {g : Grammar} : s.Compiles reader source g → ¬ g.Refuses s.tokens (s.has .build) →
    o.code = 0 ∧ ∃ (text : String) (j : Json) (r : Report), o.stdout = text ++ "\n" ∧ read text = some j ∧ r.ShownBy j ∧
      r.Tells source g s.tokens (s.has .build)

namespace Settings

variable {s : Settings} {w : Writers} {read : String → Option Json} {reader : Reader}

theorem answer_exec (s : Settings) (w : Writers) (g : Grammar) (label : String) (colored : Bool) :
    ((s.request .exec).answer w g label colored).1 =
      Outcome.ofExec w (g.recordingChain.walk s.tokens (s.has .build)) (s.has .build) (s.has .compact) := by
  rw [← map_parse_shifted]
  rfl

theorem run_exec_of_not_compiles (h : ¬ ∃ source g, s.Compiles reader source g) (outer : Settings) (w : Writers)
    (isTerminal : Bool) : ∃ stderr, (s.invocation outer .exec).runWith w isTerminal reader = ⟨1, "", stderr⟩ := by
  obtain ⟨⟨code, stdout, stderr⟩, hprepare, hcode, hstdout⟩ :=
    exists_failure (fun source g hg => h ⟨source, g, hg⟩) outer .exec w isTerminal
  obtain rfl : code = 1 := hcode
  obtain rfl : stdout = "" := hstdout
  exact ⟨stderr, by rw [Invocation.runWith, hprepare]⟩

theorem Compiles.run_exec_of_refuses (h : s.Compiles reader source g) (hrefuses : g.Refuses s.tokens (s.has .build))
    (outer : Settings) (w : Writers) (isTerminal : Bool) :
    ∃ stderr, (s.invocation outer .exec).runWith w isTerminal reader = ⟨2, "", stderr⟩ := by
  obtain ⟨e, herror⟩ := (g.refuses_iff _ _).mp hrefuses
  obtain ⟨label, records, _, hrun⟩ := h.exists_run_eq outer .exec w isTerminal
  rw [hrun, answer_exec, Grammar.ofExec_of_error herror]
  exact ⟨_, rfl⟩

theorem Compiles.run_exec_of_not_refuses (h : s.Compiles reader source g)
    (hrefuses : ¬ g.Refuses s.tokens (s.has .build)) (hw : w.Returns read) (outer : Settings) (isTerminal : Bool) :
    ∃ text stderr, (s.invocation outer .exec).runWith w isTerminal reader = ⟨0, text ++ "\n", stderr⟩ ∧
      read text = some (g.report s.tokens (s.has .build)).json := by
  obtain ⟨label, records, _, hrun⟩ := h.exists_run_eq outer .exec w isTerminal
  obtain ⟨text, htext, hread⟩ := hw.read_report (s.has .compact) (g.report s.tokens (s.has .build))
  have hexec : Outcome.ofExec w (g.recordingChain.walk s.tokens (s.has .build)) (s.has .build) (s.has .compact) =
      ⟨0, text ++ "\n", ""⟩ := by
    rw [Grammar.ofExec_of_none ((g.not_refuses_iff _ _).mp hrefuses), Outcome.ofJson, htext]
  rw [hrun, answer_exec, hexec]
  exact ⟨text, _, rfl, hread⟩

end Settings

def walkthrough : Settings :=
  { Settings.initial with text := some "a (b|c:d)* e?", path := some "a", calls := ["d=1,2", "c"], switches := [.build] }

end CallGrammar
