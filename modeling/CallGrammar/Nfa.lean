import CallGrammar.Palette
import CallGrammar.Search
import CallGrammar.Term

namespace CallGrammar

abbrev StateId := Nat

structure NfaState where
  isFinal : Bool
  epsilons : List StateId
  edges : List (TermId × StateId)
  deriving DecidableEq, Repr

namespace NfaState

def fresh (isFinal : Bool) : NfaState := ⟨isFinal, [], []⟩

def addEpsilon (s : NfaState) (target : StateId) : NfaState :=
  if target ∈ s.epsilons then s else { s with epsilons := s.epsilons ++ [target] }

def addEdge (s : NfaState) (term : TermId) (target : StateId) : NfaState :=
  if (term, target) ∈ s.edges then s else { s with edges := s.edges ++ [(term, target)] }

theorem mem_addEpsilon {s : NfaState} {target t : StateId} :
    t ∈ (s.addEpsilon target).epsilons ↔ t ∈ s.epsilons ∨ t = target := by
  unfold addEpsilon
  split
  · constructor
    · exact .inl
    · rintro (h | rfl) <;> assumption
  · simp

theorem mem_addEdge {s : NfaState} {term : TermId} {target : StateId} {e : TermId × StateId} :
    e ∈ (s.addEdge term target).edges ↔ e ∈ s.edges ∨ e = (term, target) := by
  unfold addEdge
  split
  · constructor
    · exact .inl
    · rintro (h | rfl) <;> assumption
  · simp

end NfaState

structure Nfa where
  states : Array NfaState
  deriving DecidableEq

namespace Nfa

def start : StateId := 0

def accept : StateId := 1

def initial : Nfa := ⟨#[.fresh false, .fresh true]⟩

instance : Inhabited Nfa := ⟨initial⟩

def size (n : Nfa) : Nat := n.states.size

def addState (n : Nfa) : Nfa := ⟨n.states.push (.fresh false)⟩

def addStates (n : Nfa) : Nat → Nfa
  | 0 => n
  | k + 1 => n.addState.addStates k

def addEpsilon (n : Nfa) (source target : StateId) : Nfa := ⟨n.states.modify source (·.addEpsilon target)⟩

def addEdge (n : Nfa) (source : StateId) (term : TermId) (target : StateId) : Nfa :=
  ⟨n.states.modify source (·.addEdge term target)⟩

theorem size_addState (n : Nfa) : n.addState.size = n.size + 1 := by simp [size, addState]

theorem size_addStates (n : Nfa) (k : Nat) : (n.addStates k).size = n.size + k := by
  induction k generalizing n with
  | zero => rfl
  | succ k ih => rw [addStates, ih, size_addState]; omega

theorem size_addEpsilon (n : Nfa) (source target : StateId) : (n.addEpsilon source target).size = n.size := by
  simp [size, addEpsilon]

theorem size_addEdge (n : Nfa) (source : StateId) (term : TermId) (target : StateId) :
    (n.addEdge source term target).size = n.size := by simp [size, addEdge]

def epsilons (n : Nfa) (i : StateId) : List StateId := (n.states[i]?).elim [] (·.epsilons)

def edges (n : Nfa) (i : StateId) : List (TermId × StateId) := (n.states[i]?).elim [] (·.edges)

def isFinal (n : Nfa) (i : StateId) : Bool := (n.states[i]?).any (·.isFinal)

def closure (n : Nfa) (seed : List StateId) : StateSet :=
  .ofList (Search.order n.epsilons (n.size + 1) seed)

def anyFinal (n : Nfa) (s : StateSet) : Bool := s.toList.any n.isFinal

def leaving (n : Nfa) (s : StateSet) : List (TermId × StateId) := s.toList.flatMap n.edges

def targets (n : Nfa) (s : StateSet) (term : TermId) : List StateId :=
  ((n.leaving s).filter (·.1 = term)).map (·.2)

def advance (n : Nfa) (s : StateSet) (term : TermId) : StateSet := n.closure (n.targets s term)

def terms (n : Nfa) (s : StateSet) : List TermId := ((n.leaving s).map (·.1)).eraseDups

def nextTerms (n : Nfa) (s : StateSet) : List TermId := (n.terms s).mergeSort (· ≤ ·)

def simulateFrom (n : Nfa) : StateSet → List TermId → StateSet
  | s, [] => s
  | s, t :: ts => if s.isEmpty then s else n.simulateFrom (n.advance s t) ts

def simulate (n : Nfa) (trace : List TermId) : StateSet := n.simulateFrom (n.closure [start]) trace

def accepts (n : Nfa) (trace : List TermId) : Bool := n.anyFinal (n.simulate trace)

inductive Path (n : Nfa) : StateId → List TermId → StateId → Prop where
  | nil (i : StateId) : Path n i [] i
  | epsilon {i j k : StateId} {w : List TermId} : j ∈ n.epsilons i → Path n j w k → Path n i w k
  | edge {i j k : StateId} {t : TermId} {w : List TermId} :
      (t, j) ∈ n.edges i → Path n j w k → Path n i (t :: w) k

theorem Path.append {n : Nfa} {i j k : StateId} {u v : List TermId} (h : n.Path i u j) (h' : n.Path j v k) :
    n.Path i (u ++ v) k := by
  induction h with
  | nil => exact h'
  | epsilon he _ ih => exact .epsilon he (ih h')
  | edge he _ ih => exact .edge he (ih h')

def stateLabel (i : StateId) : String := "N" ++ toString i

def dumpState (terms : TermTable) (p : Palette) (i : StateId) (s : NfaState) : List String :=
  let arrow := fun label target => "  " ++ label ++ " " ++ p.paintState (stateLabel target)
  (p.paintState (stateLabel i) ++ p.acceptMark s.isFinal)
    :: s.edges.map (fun (term, target) => arrow (terms.label term ++ " " ++ p.paint p.dim "->") target)
    ++ s.epsilons.map (arrow (p.paint p.dim "ε ->"))

def dump (n : Nfa) (terms : TermTable) (p : Palette) : String :=
  String.join ((n.states.toList.mapIdx (dumpState terms p)).flatten.map (· ++ "\n"))

end Nfa

end CallGrammar
