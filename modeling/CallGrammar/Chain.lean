import CallGrammar.Grammar

namespace CallGrammar

structure Actions (Object Args Output : Type) where
  apply : Term → Args → Object → Except String Unit × Object
  build : Object → Output × Object
  select : String → List Term → Args → Object → Option Nat

inductive DispatchError where
  | notAllowed (callable : String) (state : StateId) (expected : List String)
  | premature (state : StateId)
  | ambiguous (callable : String) (state : StateId) (candidates : List Term)
  | failed (callable : String) (message : String)
  deriving DecidableEq, Repr

namespace DispatchError

def quoted (name : String) : String := "`" ++ name ++ "`"

def expectedText (expected : List String) : String :=
  if expected.isEmpty then "no further calls" else ", ".intercalate (expected.map quoted)

def message : DispatchError → String
  | .notAllowed callable state expected =>
      quoted callable ++ " is not allowed in state " ++ Dfa.stateLabel state ++ ", expected " ++ expectedText expected
  | .premature state => "cannot build in non-accepting state " ++ Dfa.stateLabel state
  | .ambiguous callable state candidates =>
      quoted callable ++ " is ambiguous in state " ++ Dfa.stateLabel state ++ " between "
        ++ ", ".intercalate (candidates.map (·.text))
  | .failed callable message => "action " ++ quoted callable ++ " failed: " ++ message

end DispatchError

inductive Event where
  | called (state : StateId) (callable : String)
  | moved (source : StateId) (term : Term) (target : StateId)
  | resting (state : StateId) (isFinal : Bool) (expected : List String)
  | rejected (state : StateId) (callable : String) (error : DispatchError)
  | built (state : StateId) (accepted : Bool)
  deriving DecidableEq, Repr

structure Chain (Object Args Output : Type) where
  dfa : Dfa
  terms : TermTable
  actions : Actions Object Args Output
  object : Object
  state : StateId

variable {Object Args Output : Type}

structure Reply (Object Args Output Value : Type) where
  result : Except DispatchError Value
  chain : Chain Object Args Output
  events : List Event

def Grammar.chain (g : Grammar) (actions : Actions Object Args Output) (object : Object) : Chain Object Args Output :=
  ⟨g.dfa, g.terms, actions, object, Dfa.start⟩

namespace Chain

def isFinal (c : Chain Object Args Output) : Bool := c.dfa.isFinal c.state

def canBuild (c : Chain Object Args Output) : Bool := c.isFinal

def moves (c : Chain Object Args Output) : List (Term × StateId) :=
  (c.dfa.edges c.state).filterMap fun (id, target) => (c.terms.get? id).map (·, target)

def expected (c : Chain Object Args Output) : List String := (c.moves.map (·.1.callable)).eraseDups

def candidates (c : Chain Object Args Output) (name : String) : List (Term × StateId) :=
  match c.moves.filter (·.1.callable = name) with
  | [] => c.moves.filter (·.1.name = name)
  | named => named

def resolve (c : Chain Object Args Output) (name : String) (args : Args) : Except DispatchError (Term × StateId) :=
  match c.candidates name with
  | [] => .error (.notAllowed name c.state c.expected)
  | [move] => .ok move
  | several =>
      match (c.actions.select name (several.map (·.1)) args c.object).bind (several[·]?) with
      | some move => .ok move
      | none => .error (.ambiguous name c.state (several.map (·.1)))

def resting (c : Chain Object Args Output) : Event := .resting c.state c.isFinal c.expected

def call (c : Chain Object Args Output) (name : String) (args : Args) : Reply Object Args Output Unit :=
  match c.resolve name args with
  | .error e => ⟨.error e, c, [.called c.state name, .rejected c.state name e]⟩
  | .ok (term, target) =>
      match c.actions.apply term args c.object with
      | (.error message, object) =>
          let e := .failed name message
          ⟨.error e, { c with object }, [.called c.state name, .rejected c.state name e]⟩
      | (.ok _, object) =>
          let moved := { c with object, state := target }
          ⟨.ok (), moved, [.called c.state name, .moved c.state term target, moved.resting]⟩

def build (c : Chain Object Args Output) : Reply Object Args Output Output :=
  if c.isFinal then
    let (output, object) := c.actions.build c.object
    ⟨.ok output, { c with object }, [.built c.state true]⟩
  else ⟨.error (.premature c.state), c, [.built c.state false]⟩

end Chain

end CallGrammar
