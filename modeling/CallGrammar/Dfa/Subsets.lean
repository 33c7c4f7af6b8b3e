import CallGrammar.Dfa

namespace CallGrammar

structure Subsets where
  cores : Array StateSet
  dfa : Dfa
  deriving DecidableEq

structure StateLimitExceeded where
  limit : Nat
  deriving DecidableEq, Repr

namespace Subsets

def number (limit : Option Nat) (cores : Array StateSet) (core : StateSet) :
    Except StateLimitExceeded (Array StateSet × StateId) :=
  match cores.idxOf? core, limit with
  | some i, _ => .ok (cores, i)
  | none, none => .ok (cores.push core, cores.size)
  | none, some k => if k ≤ cores.size then .error ⟨k⟩ else .ok (cores.push core, cores.size)

def addEdges (limit : Option Nat) (n : Nfa) (core : StateSet) :
    List TermId → Array StateSet → DfaState → Except StateLimitExceeded (Array StateSet × DfaState)
  | [], cores, state => .ok (cores, state)
  | t :: ts, cores, state =>
      match number limit cores (n.advance core t) with
      | .ok (cores, target) => addEdges limit n core ts cores (state.insert t target)
      | .error e => .error e

def build (limit : Option Nat) (n : Nfa) :
    Nat → Array StateSet → Array DfaState → Except StateLimitExceeded Subsets
  | 0, cores, states => .ok ⟨cores, ⟨states⟩⟩
  | rounds + 1, cores, states =>
      match cores[states.size]? with
      | none => .ok ⟨cores, ⟨states⟩⟩
      | some core =>
          match addEdges limit n core (n.terms core) cores (.fresh (n.anyFinal core)) with
          | .ok (cores, state) => build limit n rounds cores (states.push state)
          | .error e => .error e

end Subsets

def Nfa.determinize (limit : Option Nat) (n : Nfa) : Except StateLimitExceeded Subsets :=
  match Subsets.number limit #[] (n.closure [Nfa.start]) with
  | .ok (cores, _) => Subsets.build limit n (Nat.pow 2 n.size) cores #[]
  | .error e => .error e

end CallGrammar
