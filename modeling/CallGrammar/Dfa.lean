import CallGrammar.Nfa

namespace CallGrammar

structure DfaState where
  isFinal : Bool
  edges : List (TermId × StateId)
  nodup : (edges.map (·.1)).Nodup
  deriving DecidableEq

namespace DfaState

def fresh (isFinal : Bool) : DfaState := ⟨isFinal, [], by simp⟩

def next? (s : DfaState) (term : TermId) : Option StateId := (s.edges.find? (·.1 = term)).map (·.2)

def terms (s : DfaState) : List TermId := s.edges.map (·.1)

def insert (s : DfaState) (term : TermId) (target : StateId) : DfaState :=
  if h : term ∈ s.terms then
    { s with
      edges := s.edges.map fun e => if e.1 = term then (term, target) else e
      nodup := by
        have hterms : (s.edges.map fun e => if e.1 = term then (term, target) else e).map (·.1) = s.edges.map (·.1) := by
          rw [List.map_map]
          apply List.map_congr_left
          intro e _
          by_cases he : e.1 = term <;> simp [he]
        rw [hterms]
        exact s.nodup }
  else
    { s with
      edges := s.edges ++ [(term, target)]
      nodup := by
        rw [List.map_append, List.nodup_append]
        refine ⟨s.nodup, by simp, ?_⟩
        intro a ha b hb hab
        simp only [List.map_cons, List.map_nil, List.mem_singleton] at hb
        exact h (by simpa [terms, ← hab.trans hb] using ha) }

def ofEdges (isFinal : Bool) (edges : List (TermId × StateId)) : DfaState :=
  edges.foldl (fun s e => s.insert e.1 e.2) (fresh isFinal)

def same (s t : DfaState) : Bool :=
  s.isFinal = t.isFinal && s.edges.length = t.edges.length && s.edges.all fun e => t.next? e.1 = some e.2

end DfaState

structure Dfa where
  states : Array DfaState
  deriving DecidableEq

namespace Dfa

def start : StateId := 0

def size (d : Dfa) : Nat := d.states.size

def get? (d : Dfa) (i : StateId) : Option DfaState := d.states[i]?

def edges (d : Dfa) (i : StateId) : List (TermId × StateId) := (d.get? i).elim [] (·.edges)

def isFinal (d : Dfa) (i : StateId) : Bool := (d.get? i).any (·.isFinal)

def step (d : Dfa) (i : StateId) (term : TermId) : Option StateId := (d.get? i).bind (·.next? term)

def runFrom (d : Dfa) : StateId → List TermId → Option StateId
  | i, [] => some i
  | i, t :: ts => (d.step i t).bind fun j => d.runFrom j ts

def run (d : Dfa) (trace : List TermId) : Option StateId := d.runFrom start trace

def accepts (d : Dfa) (trace : List TermId) : Bool := (d.run trace).any d.isFinal

def same (d e : Dfa) : Bool :=
  d.size = e.size && (d.states.toList.zip e.states.toList).all fun (s, t) => s.same t

def successors (d : Dfa) (i : StateId) : List StateId := (d.edges i).map (·.2)

def reachable (d : Dfa) : Option (List StateId) :=
  if d.size = 0 then some []
  else
    let order := Search.order (fun i => (d.successors i).filter (· < d.size)) d.size [start]
    if order.all fun i => (d.successors i).all (· < d.size) then some order else none

def stateLabel (i : StateId) : String := "S" ++ toString i

def dumpState (terms : TermTable) (p : Palette) (i : StateId) (s : DfaState) : List String :=
  (p.paintState (stateLabel i) ++ p.acceptMark s.isFinal)
    :: s.edges.map fun (term, target) =>
      "  " ++ terms.label term ++ " " ++ p.paint p.dim "->" ++ " " ++ p.paintState (stateLabel target)

def dump (d : Dfa) (terms : TermTable) (p : Palette) : String :=
  String.join ((d.states.toList.mapIdx (dumpState terms p)).flatten.map (· ++ "\n"))

end Dfa

end CallGrammar
