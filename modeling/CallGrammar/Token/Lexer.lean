import CallGrammar.Token

namespace CallGrammar

def isBlank (c : Char) : Bool := c = ' ' || c = '\t' || c = '\r' || c = '\n'

def isWordChar (c : Char) : Bool := !isBlank c && (TokenKind.ofChar? c).isNone

structure Word where
  start : Nat
  reversed : List Char

namespace Lexer

def Word.token (w : Word) (stop : Nat) : Token :=
  ⟨.ident, ⟨w.start, stop⟩, String.ofList w.reversed.reverse⟩

def extend (word : Option Word) (offset : Nat) (c : Char) : Word :=
  match word with
  | none => ⟨offset, [c]⟩
  | some w => ⟨w.start, c :: w.reversed⟩

def close (word : Option Word) (stop : Nat) (rest : List Token) : List Token :=
  match word with
  | none => rest
  | some w => Word.token w stop :: rest

def scan : Nat → Option Word → List Char → List Token
  | offset, word, [] => close word offset []
  | offset, word, c :: cs =>
      let next := offset + c.utf8Size
      if isBlank c then close word offset (scan next none cs)
      else
        match TokenKind.ofChar? c with
        | some kind => close word offset (⟨kind, ⟨offset, next⟩, String.singleton c⟩ :: scan next none cs)
        | none => scan next (some (extend word offset c)) cs

def tokens (source : String) : List Token := scan 0 none source.toList

end Lexer

def Token.cut (source : String) (t : Token) : Token := .at source t.kind t.span.cut

def lex (source : String) : List Token := (Lexer.tokens source).map (.cut source)

def lex? (source : String) : Option (List Token) :=
  if (Lexer.tokens source).all (·.span.cut?.isSome) then some (lex source) else none

def endOffset (source : String) : Nat := source.utf8ByteSize % UInt32.size

end CallGrammar
