import CallGrammar.Token

namespace CallGrammar

inductive Pattern where
  | exactly (text : List Char)
  | run (admits : Char → Bool)

def Pattern.matches : Pattern → List Char → Bool
  | .exactly text, cs => cs = text
  | .run admits, cs => !cs.isEmpty && cs.all admits

namespace TokenKind

def all : List TokenKind :=
  [.parenOpen, .parenClose, .colon, .star, .plus, .question, .pipe, .ident, .whitespace, .garbage]

def pattern? : TokenKind → Option Pattern
  | .parenOpen => some (.exactly ['('])
  | .parenClose => some (.exactly [')'])
  | .colon => some (.exactly [':'])
  | .star => some (.exactly ['*'])
  | .plus => some (.exactly ['+'])
  | .question => some (.exactly ['?'])
  | .pipe => some (.exactly ['|'])
  | .ident => some (.run (· ∉ [' ', '\t', '\r', '\n', '(', ')', '*', '+', '?', ':', '|']))
  | .whitespace => some (.run (· ∈ [' ', '\t', '\r', '\n']))
  | .garbage => none

def admits (k : TokenKind) (cs : List Char) : Bool := k.pattern?.any (·.matches cs)

end TokenKind

namespace Rules

def rule? (cs : List Char) : Option TokenKind := TokenKind.all.find? (·.admits cs)

def longest? (c : Char) (cs : List Char) : Option (TokenKind × Nat) :=
  (List.range (cs.length + 1)).reverse.findSome? fun n => (rule? (c :: cs.take n)).map (·, n)

def leftover (source : String) (stray : Option Nat) (stop : Nat) : List Token :=
  (stray.map fun start => Token.at source .garbage ⟨start, stop⟩).toList

def tokensFrom (source : String) (offset : Nat) (stray : Option Nat) : List Char → List Token
  | [] => leftover source stray offset
  | c :: cs =>
      match longest? c cs with
      | none => tokensFrom source (offset + c.utf8Size) (some (stray.getD offset)) cs
      | some (kind, n) =>
          let stop := offset + (String.ofList (c :: cs.take n)).utf8ByteSize
          let rest := tokensFrom source stop none (cs.drop n)
          leftover source stray offset ++ if kind.isTrivia then rest else Token.at source kind ⟨offset, stop⟩ :: rest
termination_by cs => cs.length

def tokens (source : String) : List Token := tokensFrom source 0 none source.toList

end Rules

end CallGrammar
