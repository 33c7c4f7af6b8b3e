namespace CallGrammar

inductive Json where
  | bool (value : Bool)
  | nat (value : Nat)
  | str (value : String)
  | arr (items : List Json)
  | obj (members : List (String × Json))

namespace Json

inductive Layout where
  | line
  | indented (depth : Nat)

namespace Layout

def deeper : Layout → Layout
  | .line => .line
  | .indented depth => .indented (depth + 1)

def lineEnd : Layout → String
  | .line => ""
  | .indented depth => "\n" ++ String.ofList (List.replicate (2 * depth) ' ')

def colon : Layout → String
  | .line => ":"
  | .indented _ => ": "

end Layout

def hexDigit (n : Nat) : Char := if n < 10 then Char.ofNat (48 + n) else Char.ofNat (87 + n)

def escapeChar (c : Char) : List Char :=
  if c = '"' then ['\\', '"']
  else if c = '\\' then ['\\', '\\']
  else if c = '\x08' then ['\\', 'b']
  else if c = '\x0c' then ['\\', 'f']
  else if c = '\n' then ['\\', 'n']
  else if c = '\r' then ['\\', 'r']
  else if c = '\t' then ['\\', 't']
  else if c.toNat < 32 then ['\\', 'u', '0', '0', hexDigit (c.toNat / 16), hexDigit (c.toNat % 16)]
  else [c]

def quote (s : String) : String := "\"" ++ String.ofList (s.toList.flatMap escapeChar) ++ "\""

mutual

def write (layout : Layout) : Json → String
  | .bool b => if b then "true" else "false"
  | .nat n => toString n
  | .str s => quote s
  | .arr [] => "[]"
  | .arr (j :: js) => "[" ++ layout.deeper.lineEnd ++ write layout.deeper j ++ writeItems layout js
  | .obj [] => "\x7b\x7d"
  | .obj (member :: rest) =>
      "\x7b" ++ layout.deeper.lineEnd ++ writeMember layout member ++ writeMembers layout rest

def writeItems (layout : Layout) : List Json → String
  | [] => layout.lineEnd ++ "]"
  | j :: js => "," ++ layout.deeper.lineEnd ++ write layout.deeper j ++ writeItems layout js

def writeMember (layout : Layout) : String × Json → String
  | (key, j) => quote key ++ layout.colon ++ write layout.deeper j

def writeMembers (layout : Layout) : List (String × Json) → String
  | [] => layout.lineEnd ++ "\x7d"
  | member :: rest => "," ++ layout.deeper.lineEnd ++ writeMember layout member ++ writeMembers layout rest

end

def compact (j : Json) : String := j.write .line

def render (isCompact : Bool) (j : Json) : String := if isCompact then j.compact else j.write (.indented 0)

end Json

end CallGrammar
