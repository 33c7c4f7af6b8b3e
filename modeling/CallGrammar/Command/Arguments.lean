import CallGrammar.Command.Options

namespace CallGrammar

inductive Ending where
  | finished
  | refused (e : UsageError)
  | command (c : CommandName) (rest : List String)
  deriving DecidableEq, Repr

structure Progress where
  awaiting : Option Setting
  isEscaped : Bool
  hasPath : Bool
  deriving DecidableEq, Repr

namespace Progress

def initial : Progress := ⟨none, false, false⟩

def unmet (p : Progress) : List Use := p.awaiting.toList.map (.setting · none false)

end Progress

def helpOn : List String → UsageError
  | [] => .helpWanted
  | [word] => if word = "help" ∨ (CommandName.ofText? word).isSome then .helpWanted else .invalidCommand
  | _ => .invalidCommand

abbrev WordReading := List Use × Except Ending Progress

namespace Progress

def readPosition (p : Progress) (command : Option CommandName) (word : String) (rest : List String) : WordReading :=
  match command with
  | none =>
      let named := CommandName.ofText? word
      if p.isEscaped then
        ([], .error (.refused (if word = "help" ∨ named.isSome then .unknownArgument else .invalidCommand)))
      else if word = "help" then ([], .error (.refused (helpOn rest)))
      else match named with
        | some c => ([], .error (.command c rest))
        | none => ([], .error (.refused .invalidCommand))
  | some c =>
      if !p.hasPath then ([.path word], .ok { p with hasPath := true })
      else if c.takesCalls then ([.call word], .ok p)
      else ([], .error (.refused .unknownArgument))

def readOption (p : Progress) : OptionReading → WordReading
  | (uses, .error e) => (p.unmet ++ uses, .error (.refused e))
  | (uses, .ok awaiting) => (p.unmet ++ uses, .ok { p with awaiting })

def readWord (p : Progress) (command : Option CommandName) (word : String) (rest : List String) : WordReading :=
  if p.isEscaped then p.readPosition command word rest
  else match CommandWord.ofString word, p.awaiting with
    | .escape, _ => (p.unmet, .ok { p with awaiting := none, isEscaped := true })
    | .long name value, _ => p.readOption (OptionForm.readLong (OptionForm.known command) name value)
    | .short letters, _ => p.readOption (OptionForm.readShort (OptionForm.known command) letters)
    | .plain, some s => ([.setting s (some word) false], .ok { p with awaiting := none })
    | .plain, none => p.readPosition command word rest

end Progress

def readWords (command : Option CommandName) (p : Progress) : List String → List Use × Ending
  | [] => (p.unmet, .finished)
  | word :: rest =>
      match p.readWord command word rest with
      | (uses, .error ending) => (uses, ending)
      | (uses, .ok next) =>
          let (more, ending) := readWords command next rest
          (uses ++ more, ending)

end CallGrammar
