import CallGrammar.Chain.Trace

namespace CallGrammar

structure Traced (Object Args Output : Type) where
  chain : Chain Object Args Output
  trace : Option Trace

namespace Traced

variable {Object Args Output : Type}

def note (w : Traced Object Args Output) (e : Event) : Traced Object Args Output :=
  { w with trace := w.trace.map (·.observe [e]) }

def noteState (w : Traced Object Args Output) : Traced Object Args Output := w.note w.chain.resting

def withTrace (w : Traced Object Args Output) (trace : Option Trace) : Traced Object Args Output :=
  noteState { w with trace }

def reject (w : Traced Object Args Output) (name : String) (e : DispatchError) :
    Except DispatchError Unit × Traced Object Args Output :=
  (.error e, w.note (.rejected w.chain.state name e))

def call (w : Traced Object Args Output) (name : String) (args : Args) :
    Except DispatchError Unit × Traced Object Args Output :=
  let state := w.chain.state
  let w := w.note (.called state name)
  match w.chain.resolve name args with
  | .error e => w.reject name e
  | .ok (term, target) =>
      match w.chain.actions.apply term args w.chain.object with
      | (.error message, object) => { w with chain := { w.chain with object } }.reject name (.failed name message)
      | (.ok _, object) =>
          let w := { w with chain := { w.chain with object, state := target } }
          (.ok (), (w.note (.moved state term target)).noteState)

def build (w : Traced Object Args Output) : Except DispatchError Output × Traced Object Args Output :=
  let state := w.chain.state
  if w.chain.isFinal then
    let w := w.note (.built state true)
    let (output, object) := w.chain.actions.build w.chain.object
    (.ok output, { w with chain := { w.chain with object } })
  else (.error (.premature state), w.note (.built state false))

end Traced

def Chain.traced {Object Args Output : Type} (c : Chain Object Args Output) (trace : Option Trace) :
    Traced Object Args Output :=
  Traced.withTrace ⟨c, none⟩ trace

end CallGrammar
