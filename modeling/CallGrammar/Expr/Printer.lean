import CallGrammar.Expr
import CallGrammar.Term

namespace CallGrammar.Expr

inductive Position where
  | top
  | branch
  | item
  | operand
  deriving DecidableEq, Repr

def parens (text : String) : String := "(" ++ text ++ ")"

def quantified (operator text : String) : Position → String
  | .operand => parens (text ++ operator)
  | _ => text ++ operator

mutual

def printAt : Position → Expr Term → String
  | _, .term t => t.text
  | pos, .seq items => match pos with
    | .top | .branch => printSeparated " " .item items
    | .item | .operand => parens (printSeparated " " .item items)
  | pos, .alt branches => match pos with
    | .top => printSeparated " | " .branch branches
    | .branch | .item | .operand => parens (printSeparated " | " .branch branches)
  | pos, .star inner => quantified "*" (printAt .operand inner) pos
  | pos, .plus inner => quantified "+" (printAt .operand inner) pos
  | pos, .optional inner => quantified "?" (printAt .operand inner) pos

def printSeparated (separator : String) : Position → List (Expr Term) → String
  | _, [] => ""
  | pos, [e] => printAt pos e
  | pos, e :: es => printAt pos e ++ separator ++ printSeparated separator pos es

end

def print (e : Expr Term) : String := printAt .top e

end CallGrammar.Expr
