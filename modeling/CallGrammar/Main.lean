import CallGrammar.Command.Directory

namespace CallGrammar

def readErrorOf : IO.Error → ReadError
  | .noFileOrDirectory .. => .notFound
  | .inappropriateType _ 21 _ => .isDirectory
  | .inappropriateType .. => .notDirectory
  | .permissionDenied .. => .denied
  | .invalidArgument _ 36 _ | .invalidArgument _ 4294967260 _ => .nameTooLong
  | e => .failed (toString e)

def readOrigin (origin : Origin) : IO (Except ReadError String) := do
  try
    match origin with
    | .inline text => return .ok text
    | .stdin => return Directory.textOf (← (← IO.getStdin).readBinToEnd)
    | .file path => return Directory.textOf (← IO.FS.readBinFile path)
  catch e => return .error (readErrorOf e)

def usage : String :=
  String.join <| List.map (· ++ "\n")
    ["Usage: callgrammar [--log LEVEL] COMMAND", "",
      "  check [GRAMMAR] [-g TEXT] [--color WHEN]",
      "  ast [GRAMMAR] [-g TEXT] [--normalize] [--color WHEN]",
      "  dump [GRAMMAR] [-g TEXT] [--json] [--compact] [--color WHEN]",
      "  exec [GRAMMAR] [-g TEXT] [CALLS]... [--build] [--compact] [--color WHEN]",
      "  trace [GRAMMAR] [-g TEXT] [CALLS]... [--build] [-v] [--color WHEN]"]

def refuse (e : UsageError) : IO Unit :=
  if e = .helpWanted then IO.print usage else IO.eprint ("error: " ++ e.message ++ "\n\n" ++ usage)

end CallGrammar

open CallGrammar in
def main (args : List String) : IO UInt32 := do
  match Invocation.ofWords args with
  | .error e =>
      refuse e
      return UInt32.ofNat e.exitCode
  | .ok invocation =>
      let content ← match invocation.origin? with
        | some origin => readOrigin origin
        | none => pure (.ok "")
      let isTerminal := (← (← IO.getStdout).isTty) && (← (← IO.getStderr).isTty)
      let outcome := invocation.run isTerminal fun _ => content
      IO.eprint outcome.stderr
      IO.print outcome.stdout
      return UInt32.ofNat outcome.code
