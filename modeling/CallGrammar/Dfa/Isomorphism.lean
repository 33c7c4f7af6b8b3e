import CallGrammar.Dfa

namespace CallGrammar.Dfa

abbrev Pairs := List (StateId × StateId)

def Pairs.image? (pairs : Pairs) (a : StateId) : Option StateId := (pairs.find? (·.1 = a)).map (·.2)

def Pairs.preimage? (pairs : Pairs) (b : StateId) : Option StateId := (pairs.find? (·.2 = b)).map (·.1)

def pairTargets (partner : DfaState) : List (TermId × StateId) → Pairs → Option (Pairs × Pairs)
  | [], pairs => some (pairs, [])
  | (t, a) :: edges, pairs =>
      (partner.next? t).bind fun b =>
        match pairs.image? a, pairs.preimage? b with
        | none, none =>
            (pairTargets partner edges ((a, b) :: pairs)).map fun (pairs, found) => (pairs, (a, b) :: found)
        | some b', some a' => if b' = b ∧ a' = a then pairTargets partner edges pairs else none
        | _, _ => none

inductive Comparison where
  | outside
  | unfinished
  | differing
  | agreeing (pairs : Pairs)
  deriving DecidableEq, Repr

def comparePairs (d e : Dfa) : Nat → Pairs → Pairs → Comparison
  | _, pairs, [] => .agreeing pairs
  | 0, _, _ :: _ => .unfinished
  | rounds + 1, pairs, (a, b) :: queue =>
      match d.get? a, e.get? b with
      | some s, some t =>
          if s.isFinal ≠ t.isFinal ∨ s.edges.length ≠ t.edges.length then .differing
          else
            match pairTargets t s.edges pairs with
            | none => .differing
            | some (pairs, found) => comparePairs d e rounds pairs (queue ++ found)
      | _, _ => .outside

def isomorphic? (d e : Dfa) : Option Bool :=
  if d.size ≠ e.size then some false
  else if d.size = 0 then some true
  else
    match comparePairs d e (d.size + 1) [(start, start)] [(start, start)] with
    | .outside | .unfinished => none
    | .differing => some false
    | .agreeing pairs => d.reachable.map fun order => pairs.length = order.length

end CallGrammar.Dfa
