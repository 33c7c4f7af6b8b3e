namespace CallGrammar.Text

inductive Tone where
  | plain
  | error
  | title
  | gutter
  | help
  deriving DecidableEq, Repr

def Tone.escape : Tone → String
  | .plain => ""
  | .error => "\x1b[1m\x1b[91m"
  | .title => "\x1b[1m"
  | .gutter => "\x1b[1m\x1b[94m"
  | .help => "\x1b[1m\x1b[96m"

def Tone.paint (t : Tone) (text : String) : String := if t = .plain then text else t.escape ++ text ++ "\x1b[0m"

structure Cell where
  tone : Tone
  char : Char
  deriving DecidableEq, Repr

abbrev Row := List Cell

namespace Row

def ofChars (tone : Tone) (cs : List Char) : Row := cs.map (Cell.mk tone)

def blanks (n : Nat) : Row := ofChars .plain (List.replicate n ' ')

def write (row : Row) (column : Nat) (tone : Tone) (cs : List Char) : Row :=
  row.take column ++ blanks (column - row.length) ++ ofChars tone cs ++ row.drop (column + cs.length)

def runs : Row → List (Tone × List Char)
  | [] => []
  | cell :: row =>
      match runs row with
      | [] => [(cell.tone, [cell.char])]
      | (tone, text) :: rest =>
          if cell.tone = tone then (tone, cell.char :: text) :: rest else (cell.tone, [cell.char]) :: (tone, text) :: rest

def text (row : Row) : String := String.ofList (row.map (·.char))

def render (colored : Bool) (row : Row) : String :=
  if colored then String.join (row.runs.map fun (tone, cs) => tone.paint (String.ofList cs)) else row.text

end Row

end CallGrammar.Text
