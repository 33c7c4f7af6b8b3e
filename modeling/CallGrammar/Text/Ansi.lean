namespace CallGrammar.Ansi

def escape : Char := '\x1b'

inductive Mode where
  | text
  | escaped
  | sequence
  deriving DecidableEq, Repr

def isFinal (c : Char) : Bool := '@' ≤ c ∧ c ≤ '~'

def stripFrom : Mode → List Char → List Char
  | _, [] => []
  | .text, c :: cs => if c = escape then stripFrom .escaped cs else c :: stripFrom .text cs
  | .escaped, c :: cs => if c = '[' then stripFrom .sequence cs else stripFrom .text cs
  | .sequence, c :: cs => if isFinal c then stripFrom .text cs else stripFrom .sequence cs

def strip (text : String) : String := String.ofList (stripFrom .text text.toList)

end CallGrammar.Ansi
