namespace CallGrammar

structure CallToken where
  name : String
  args : List String
  deriving DecidableEq, Repr

namespace CallToken

def commaParts : List Char → List Char × List (List Char)
  | [] => ([], [])
  | c :: cs =>
      let (part, parts) := commaParts cs
      if c = ',' then ([], part :: parts) else (c :: part, parts)

def argTexts (cs : List Char) : List String :=
  let (part, parts) := commaParts cs
  (part :: parts).map String.ofList

def parse (token : String) : CallToken :=
  let name := String.ofList (token.toList.takeWhile (· ≠ '='))
  match token.toList.dropWhile (· ≠ '=') with
  | [] | [_] => ⟨name, []⟩
  | _ :: args => ⟨name, argTexts args⟩

def text (t : CallToken) : String := if t.args.isEmpty then t.name else t.name ++ "=" ++ ",".intercalate t.args

end CallToken

end CallGrammar
