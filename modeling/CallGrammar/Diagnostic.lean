import CallGrammar.Expr.Parser

namespace CallGrammar

inductive DiagnosticKind where
  | unclosedGroup
  | expectedTerm
  | expectedAlias
  | trailingInput
  deriving DecidableEq, Repr

namespace DiagnosticKind

def fallback : DiagnosticKind → String
  | .unclosedGroup => "expect left paren"
  | .expectedTerm => "expected a term"
  | .expectedAlias => "expected an alias name after `:`"
  | .trailingInput => "junk at end of expression"

def withDetail (k : DiagnosticKind) (detail : String) : String := k.fallback ++ ": " ++ detail

def template (k : DiagnosticKind) : String := k.withDetail "\x7b\x7d"

def message (k : DiagnosticKind) : Option String → String
  | none => k.fallback
  | some detail => k.withDetail detail

def hint? : DiagnosticKind → Option String
  | .unclosedGroup => some "add `)` to close the group"
  | .expectedAlias => some "e.g., `articleName:article`"
  | .expectedTerm | .trailingInput => none

end DiagnosticKind

structure Related where
  text : String
  span : Span
  deriving DecidableEq, Repr

structure Diagnostic where
  kind : DiagnosticKind
  span : Span
  message : String
  related : List Related
  hints : List String
  deriving DecidableEq, Repr

namespace Diagnostic

def report (kind : DiagnosticKind) (span : Span) (detail : Option String) (related : List Related) : Diagnostic :=
  ⟨kind, span, kind.message detail, related, kind.hint?.toList⟩

def addHint (d : Diagnostic) (hint : String) : Diagnostic := { d with hints := d.hints ++ [hint] }

def spanText (s : Span) : String := toString s.start ++ ".." ++ toString s.stop

def line (d : Diagnostic) : String :=
  "error at " ++ spanText d.span ++ ": " ++ d.message
    ++ String.join (d.related.map fun r => " (related: " ++ r.text ++ " at " ++ spanText r.span ++ ")")
    ++ String.join (d.hints.map fun h => " (hint: " ++ h ++ ")")

def summary (ds : List Diagnostic) : String := "; ".intercalate (ds.map (·.message))

def lines (ds : List Diagnostic) : String := "\n".intercalate (ds.map line)

end Diagnostic

def SyntaxError.diagnostic (position : Span) : SyntaxError → Diagnostic
  | .expectedTerm (some kind) => .report .expectedTerm position (some ("found " ++ kind.describe)) []
  | .expectedTerm none => .report .expectedTerm position (some "found end of input") []
  | .expectedAlias name span => .report .expectedAlias position none [⟨"for term `" ++ name ++ "`", span⟩]
  | .unclosedGroup opened => .report .unclosedGroup position none [⟨"group opened here", opened⟩]
  | .trailingInput found => .report .trailingInput position (some ("unexpected `" ++ found ++ "`")) []

end CallGrammar
