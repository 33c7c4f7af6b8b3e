import CallGrammar.Chain.Trace
import CallGrammar.Command.Settings
import CallGrammar.Command.Walk
import CallGrammar.Diagnostic.Report
import CallGrammar.Expr.Outline
import CallGrammar.Expr.Printer

namespace CallGrammar

inductive ReadError where
  | notFound
  | notDirectory
  | isDirectory
  | denied
  | nameTooLong
  | notText
  | failed (reason : String)
  deriving DecidableEq, Repr

namespace ReadError

def message : ReadError → String
  | .notFound => "No such file or directory (os error 2)"
  | .notDirectory => "Not a directory (os error 20)"
  | .isDirectory => "Is a directory (os error 21)"
  | .denied => "Permission denied (os error 13)"
  | .nameTooLong => "File name too long (os error 36)"
  | .notText => "stream did not contain valid UTF-8"
  | .failed reason => reason

end ReadError

abbrev Reader := Origin → Except ReadError String

structure Outcome where
  code : Nat
  stdout : String
  stderr : String
  deriving DecidableEq, Repr

namespace LogLevel

def color : LogLevel → String
  | .off | .trace => "\x1b[37m"
  | .error => "\x1b[31m"
  | .warn => "\x1b[33m"
  | .info => "\x1b[34m"
  | .debug => "\x1b[36m"

end LogLevel

def LogTopic.target : LogTopic → String
  | .grammar => "megabuilder_compiler::grammar"
  | .blueprint => "megabuilder_lib::blueprint"
  | .chain => "megabuilder_runtime::engine::builder"
  | .command => "megabuilder::commands::check"

namespace LogRecord

def line (r : LogRecord) : String :=
  let origin := if LogLevel.debug.rank ≤ r.level.rank then "(1) " ++ r.topic.target ++ ": " else ""
  " \x1b[0m" ++ r.level.color ++ "[" ++ r.level.title ++ "] \x1b[0m" ++ origin ++ r.text ++ "\n"

end LogRecord

structure Writers where
  json (isCompact : Bool) (j : Json) : Except String String
  excerpts (colored : Bool) (label source : String) (diagnostics : List Diagnostic) : String
  record (r : LogRecord) : String
  failure (e : ReadError) : String

namespace Writers

def standard : Writers where
  json isCompact j := .ok (j.render isCompact)
  excerpts colored label source diagnostics := Diagnostic.annotatedAll colored (some label) source diagnostics
  record := LogRecord.line
  failure := ReadError.message

def log (w : Writers) (level : LogLevel) (records : List LogRecord) : String :=
  String.join ((LogRecord.upTo level records).map w.record)

end Writers

namespace Origin

variable (w : Writers)

def failure : Origin → ReadError → String
  | .file path, e => "failed to read '" ++ path ++ "': " ++ w.failure e
  | _, e => "failed to read stdin: " ++ w.failure e

def read (reader : Reader) : Origin → Except String String
  | .inline text => .ok text
  | origin => (reader origin).mapError (origin.failure w)

end Origin

namespace Outcome

variable (w : Writers)

def ofError (message : String) : Outcome := ⟨1, "", "error: " ++ message ++ "\n"⟩

def ofJson (isCompact : Bool) (j : Json) : Outcome :=
  match w.json isCompact j with
  | .ok text => ⟨0, text ++ "\n", ""⟩
  | .error message => ofError message

def addLog (o : Outcome) (level : LogLevel) (records : List LogRecord) : Outcome :=
  { o with stderr := w.log level records ++ o.stderr }

def ofCompileError (colored : Bool) (label source : String) : CompileError → Outcome
  | .malformed diagnostics => ⟨1, "", w.excerpts colored label source diagnostics⟩
  | e => ofError e.message

end Outcome

namespace Grammar

def tables (g : Grammar) (p : Palette) : String :=
  let terms := (List.range g.terms.size).map fun id => "  #" ++ toString id ++ " " ++ g.terms.label id ++ "\n"
  p.paint p.dim "[terms]" ++ "\n" ++ String.join terms ++ "\n"
    ++ p.paint p.dim "[nfa]" ++ "\n" ++ g.nfa.dump g.terms p ++ "\n"
    ++ p.paint p.dim "[dfa]" ++ "\n" ++ g.dfa.dump g.terms p

def tablesJson (g : Grammar) : Json := .obj [("terms", g.terms.json), ("dfa", g.dfa.json)]

def recordingChain (g : Grammar) : RecordingChain := g.chain recorder []

end Grammar

structure Report where
  state : StateId
  accepting : Bool
  built : Bool
  expected : List String
  calls : List RecordedCall
  deriving DecidableEq, Repr

def Report.json (r : Report) : Json :=
  .obj [("state", .str (Dfa.stateLabel r.state)), ("accepting", .bool r.accepting), ("built", .bool r.built),
    ("expected", .arr (r.expected.map .str)), ("calls", .arr (r.calls.map (·.json)))]

namespace Chain

variable {Object Args Output : Type}

def report (c : Chain Object Args Output) (built : Bool) (calls : List RecordedCall) : Report :=
  ⟨c.state, c.isFinal, built, c.expected, calls⟩

def standing (c : Chain Object Args Output) (p : Palette) : String :=
  p.paintState (Dfa.stateLabel c.state) ++ p.acceptMark c.isFinal ++ " [" ++ ", ".intercalate c.expected ++ "]"

end Chain

namespace DispatchError

def line (e : DispatchError) : String := "runtime error: " ++ e.message ++ "\n"

end DispatchError

namespace Outcome

def ofExec (w : Writers) (reply : WalkReply (List RecordedCall)) (build compact : Bool) : Outcome :=
  match reply.result with
  | .error e => ⟨2, "", e.line⟩
  | .ok calls => ofJson w compact (reply.chain.report build calls).json

def ofTrace (initial : RecordingChain) (reply : WalkReply (List RecordedCall)) (verbosity : Verbosity) (p : Palette) :
    Outcome :=
  let shown := ((Trace.start verbosity p).observe (initial.resting :: reply.events)).output
  match reply.result with
  | .error e => ⟨2, "", shown ++ e.line⟩
  | .ok _ => ⟨0, p.paint p.dim "---" ++ "\n" ++ reply.chain.standing p ++ "\n", shown⟩

end Outcome

namespace Request

def answer (w : Writers) (g : Grammar) (label : String) (colored : Bool) : Request → Outcome × List LogRecord
  | .check =>
      let text := label ++ ": " ++ toString g.callables.length ++ " callables, " ++ toString g.dfa.size ++ " states"
      (⟨0, "", ""⟩, [⟨.info, .command, text⟩])
  | .ast normalize => (⟨0, if normalize then g.expr.print ++ "\n" else g.expr.outline, ""⟩, [])
  | .dump json compact =>
      (if json then .ofJson w compact g.tablesJson else ⟨0, g.tables (.ofColored colored), ""⟩, [])
  | .exec tokens build compact =>
      let reply := g.recordingChain.walk (tokens.map CallToken.parse) build
      (.ofExec w reply build compact, reply.events.filterMap (·.record?))
  | .trace tokens build verbose =>
      let reply := g.recordingChain.walk (tokens.map CallToken.parse) build
      (.ofTrace g.recordingChain reply (.ofCount verbose) (.ofColored colored), reply.events.filterMap (·.record?))

end Request

structure Prepared where
  label : String
  records : List LogRecord
  grammar : Grammar

namespace Invocation

def prepare (w : Writers) (i : Invocation) (isTerminal : Bool) (reader : Reader) : Except Outcome Prepared :=
  match i.origin? with
  | none => .error (.ofError "grammar is required: use a positional argument or -g/--grammar")
  | some origin =>
      match origin.read w reader with
      | .error message => .error (.ofError message)
      | .ok source =>
          match Grammar.blueprintLogged .standard source with
          | (records, .error e) =>
              .error
                ((Outcome.ofCompileError w (i.color.isColored isTerminal) origin.label source e).addLog w i.log records)
          | (records, .ok g) => .ok ⟨origin.label, records, g⟩

def runWith (w : Writers) (i : Invocation) (isTerminal : Bool) (reader : Reader) : Outcome :=
  match i.prepare w isTerminal reader with
  | .error outcome => outcome
  | .ok p =>
      let (outcome, records) := i.request.answer w p.grammar p.label (i.color.isColored isTerminal)
      outcome.addLog w i.log (p.records ++ records)

def run (i : Invocation) (isTerminal : Bool) (reader : Reader) : Outcome := i.runWith .standard isTerminal reader

end Invocation

end CallGrammar
