import CallGrammar.Span

namespace CallGrammar

inductive TokenKind where
  | parenOpen
  | parenClose
  | colon
  | star
  | plus
  | question
  | pipe
  | ident
  | whitespace
  | garbage
  deriving DecidableEq, Repr

namespace TokenKind

def isTrivia (k : TokenKind) : Bool := k = .whitespace

def describe : TokenKind → String
  | .parenOpen => "`(`"
  | .parenClose => "`)`"
  | .colon => "`:`"
  | .star => "`*`"
  | .plus => "`+`"
  | .question => "`?`"
  | .pipe => "`|`"
  | .ident => "identifier"
  | .whitespace => "whitespace"
  | .garbage => "unrecognized input"

def ofChar? : Char → Option TokenKind
  | '(' => some .parenOpen
  | ')' => some .parenClose
  | ':' => some .colon
  | '*' => some .star
  | '+' => some .plus
  | '?' => some .question
  | '|' => some .pipe
  | _ => none

end TokenKind

structure Token where
  kind : TokenKind
  span : Span
  text : String
  deriving DecidableEq, Repr

def Token.at (source : String) (kind : TokenKind) (span : Span) : Token := ⟨kind, span, span.slice source⟩

end CallGrammar
