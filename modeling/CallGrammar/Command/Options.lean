import CallGrammar.Command.Invocation

namespace CallGrammar

inductive UsageError where
  | unknownArgument
  | invalidValue
  | argumentConflict
  | tooManyValues
  | invalidCommand
  | missingCommand
  | missingArguments
  | helpWanted
  deriving DecidableEq, Repr

namespace UsageError

def message : UsageError → String
  | .unknownArgument => "unexpected argument"
  | .invalidValue => "invalid or missing value"
  | .argumentConflict => "argument used more than once"
  | .tooManyValues => "value for an argument that takes none"
  | .invalidCommand => "unknown command"
  | .missingCommand => "a command is required"
  | .missingArguments => "no arguments"
  | .helpWanted => "help"

def exitCode : UsageError → Nat
  | .helpWanted => 0
  | _ => 2

end UsageError

inductive Setting where
  | grammar
  | color
  | log
  deriving DecidableEq, Repr

inductive Switch where
  | normalize
  | json
  | compact
  | build
  deriving DecidableEq, Repr

inductive OptionKind where
  | setting (s : Setting)
  | switch (s : Switch)
  | verbose
  | help
  deriving DecidableEq, Repr

structure OptionForm where
  long : String
  short : Option Char
  kind : OptionKind
  deriving DecidableEq, Repr

namespace OptionForm

def grammar : OptionForm := ⟨"grammar", some 'g', .setting .grammar⟩

def color : OptionForm := ⟨"color", none, .setting .color⟩

def log : OptionForm := ⟨"log", none, .setting .log⟩

def normalize : OptionForm := ⟨"normalize", none, .switch .normalize⟩

def json : OptionForm := ⟨"json", none, .switch .json⟩

def compact : OptionForm := ⟨"compact", none, .switch .compact⟩

def build : OptionForm := ⟨"build", none, .switch .build⟩

def verbose : OptionForm := ⟨"verbose", some 'v', .verbose⟩

def help : OptionForm := ⟨"help", some 'h', .help⟩

def known : Option CommandName → List OptionForm
  | none => [log, help]
  | some .check => [grammar, color, log, help]
  | some .ast => [grammar, normalize, color, log, help]
  | some .dump => [grammar, json, compact, color, log, help]
  | some .exec | some .trace => [grammar, build, compact, verbose, color, log, help]

end OptionForm

inductive CommandWord where
  | escape
  | long (name : String) (value : Option String)
  | short (letters : List Char)
  | plain
  deriving DecidableEq, Repr

namespace CommandWord

def ofString (word : String) : CommandWord :=
  match word.toList with
  | ['-', '-'] => .escape
  | '-' :: '-' :: cs =>
      let value := match cs.dropWhile (· ≠ '=') with
        | [] => none
        | _ :: text => some (String.ofList text)
      .long (String.ofList (cs.takeWhile (· ≠ '='))) value
  | '-' :: c :: cs => .short (c :: cs)
  | _ => .plain

end CommandWord

inductive Use where
  | setting (s : Setting) (value : Option String) (isAttached : Bool)
  | switch (s : Switch)
  | verbose
  | help
  | path (value : String)
  | call (value : String)
  deriving DecidableEq, Repr

namespace Use

def isLate : Use → Bool
  | .setting _ _ isAttached => !isAttached
  | .path _ | .call _ => true
  | .switch _ | .verbose | .help => false

def settled (uses : List Use) : List Use := if uses.getLast?.any isLate then uses.dropLast else uses

end Use

abbrev OptionReading := List Use × Except UsageError (Option Setting)

namespace OptionForm

def readLong (forms : List OptionForm) (name : String) (value : Option String) : OptionReading :=
  match forms.find? (·.long = name) with
  | none => ([], .error .unknownArgument)
  | some form =>
      match form.kind, value with
      | .setting s, some text => ([.setting s (some text) true], .ok none)
      | .setting s, none => ([], .ok (some s))
      | .switch s, none => ([.switch s], .ok none)
      | .verbose, none => ([.verbose], .ok none)
      | .help, none => ([.help], .ok none)
      | _, some _ => ([], .error .tooManyValues)

def attached (s : Setting) : List Char → OptionReading
  | [] => ([], .ok (some s))
  | '=' :: cs => ([.setting s (some (String.ofList cs)) true], .ok none)
  | cs => ([.setting s (some (String.ofList cs)) true], .ok none)

def readShort (forms : List OptionForm) : List Char → OptionReading
  | [] => ([], .ok none)
  | c :: cs =>
      let followed := fun (u : Use) =>
        let (uses, outcome) := readShort forms cs
        (u :: uses, outcome)
      match forms.find? (·.short = some c) with
      | none => ([], .error .unknownArgument)
      | some form =>
          match form.kind with
          | .setting s => attached s cs
          | .switch s => followed (.switch s)
          | .verbose => followed .verbose
          | .help => followed .help

end OptionForm

end CallGrammar
