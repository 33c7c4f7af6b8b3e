import CallGrammar.Command.Arguments

namespace CallGrammar

structure Settings where
  path : Option String
  text : Option String
  calls : List String
  color : Option ColorChoice
  log : Option LogLevel
  switches : List Switch
  verbose : Nat
  deriving DecidableEq, Repr

namespace Settings

def initial : Settings := ⟨none, none, [], none, none, [], 0⟩

def has (s : Settings) (w : Switch) : Bool := s.switches.contains w

def setOnce {α : Type} (old : Option α) (value : Option α) : Except UsageError (Option α) :=
  match old, value with
  | some _, _ => .error .argumentConflict
  | none, none => .error .invalidValue
  | none, some a => .ok (some a)

def applySetting (s : Settings) (value : String) : Setting → Except UsageError Settings
  | .grammar => (setOnce s.text (some value)).map fun text => { s with text }
  | .color => (setOnce s.color (ColorChoice.ofName? value)).map fun color => { s with color }
  | .log => (setOnce s.log (LogLevel.ofName? value)).map fun log => { s with log }

def apply (s : Settings) : Use → Except UsageError Settings
  | .setting _ none _ => .error .invalidValue
  | .setting o (some value) _ => s.applySetting value o
  | .switch w => if s.has w then .error .argumentConflict else .ok { s with switches := s.switches ++ [w] }
  | .verbose => .ok { s with verbose := min (s.verbose + 1) 255 }
  | .help => .error .helpWanted
  | .path value => if value = "" then .error .invalidValue else .ok { s with path := some value }
  | .call value => .ok { s with calls := s.calls ++ [value] }

def ofUses (uses : List Use) : Except UsageError Settings := uses.foldlM apply initial

def shifted (s : Settings) : Option String × List String :=
  match s.text, s.path with
  | some _, some path => (none, path :: s.calls)
  | _, path => (path, s.calls)

def request (s : Settings) : CommandName → Request
  | .check => .check
  | .ast => .ast (s.has .normalize)
  | .dump => .dump (s.has .json) (s.has .compact)
  | .exec => .exec s.shifted.2 (s.has .build) (s.has .compact)
  | .trace => .trace s.shifted.2 (s.has .build) s.verbose

def invocation (s : Settings) (outer : Settings) (c : CommandName) : Invocation where
  path := if c.takesCalls then s.shifted.1 else s.path
  text := s.text
  color := s.color.getD .auto
  log := (s.log.or outer.log).getD .off
  request := s.request c

end Settings

namespace CommandName

def readSettings (c : CommandName) (words : List String) : Except UsageError Settings := do
  let (uses, ending) := readWords (some c) .initial words
  match ending with
  | .refused e => let _ ← Settings.ofUses (Use.settled uses); .error e
  | .finished | .command .. => Settings.ofUses uses

end CommandName

namespace Invocation

def ofWords (words : List String) : Except UsageError Invocation := do
  let (uses, ending) := readWords none .initial words
  match ending with
  | .refused e => let _ ← Settings.ofUses (Use.settled uses); .error e
  | .finished =>
      let _ ← Settings.ofUses uses
      .error (if uses.isEmpty then .missingArguments else .missingCommand)
  | .command c rest =>
      let _ ← Settings.ofUses (Use.settled uses)
      let inner ← c.readSettings rest
      let outer ← Settings.ofUses uses
      .ok (inner.invocation outer c)

end Invocation

end CallGrammar
