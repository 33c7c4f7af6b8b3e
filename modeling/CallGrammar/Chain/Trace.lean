import CallGrammar.Chain

namespace CallGrammar

inductive Verbosity where
  | brief
  | verbose
  | veryVerbose
  deriving DecidableEq, Repr

namespace Verbosity

def rank : Verbosity → Nat
  | .brief => 0
  | .verbose => 1
  | .veryVerbose => 2

def ofCount : Nat → Verbosity
  | 0 => .brief
  | 1 => .verbose
  | _ => .veryVerbose

end Verbosity

namespace Event

def detail : Event → Verbosity
  | .called .. => .verbose
  | .resting .. => .veryVerbose
  | .moved .. | .rejected .. | .built .. => .brief

def line (p : Palette) (e : Event) : String :=
  let label := fun state => p.paintState (Dfa.stateLabel state)
  match e with
  | .called state callable => label state ++ " call " ++ callable
  | .moved source term target =>
      label source ++ " " ++ p.paint p.dim "--" ++ " " ++ term.text ++ " " ++ p.paint p.dim "-->" ++ " " ++ label target
  | .resting state isFinal expected =>
      "  " ++ label state ++ p.acceptMark isFinal ++ " " ++ p.paint p.dim "expects" ++ " ["
        ++ ", ".intercalate expected ++ "]"
  | .rejected state callable error =>
      label state ++ " " ++ p.paint p.error "reject" ++ " " ++ callable ++ ": " ++ error.message
  | .built state true => label state ++ " " ++ p.paint p.accept "build"
  | .built state false => label state ++ " " ++ p.paint p.error "build rejected"

def record? : Event → Option LogRecord
  | .called state callable => some ⟨.trace, .chain, Dfa.stateLabel state ++ ": call `" ++ callable ++ "`"⟩
  | .moved source term target =>
      some ⟨.trace, .chain, Dfa.stateLabel source ++ " --" ++ term.text ++ "--> " ++ Dfa.stateLabel target⟩
  | .resting .. => none
  | .rejected state callable error =>
      some ⟨.trace, .chain, Dfa.stateLabel state ++ ": rejected `" ++ callable ++ "`: " ++ error.message⟩
  | .built state true => some ⟨.trace, .chain, Dfa.stateLabel state ++ ": build"⟩
  | .built state false => some ⟨.trace, .chain, Dfa.stateLabel state ++ ": build refused"⟩

end Event

structure Trace where
  verbosity : Verbosity
  palette : Palette
  lines : List String
  deriving DecidableEq, Repr

namespace Trace

def start (verbosity : Verbosity) (palette : Palette) : Trace := ⟨verbosity, palette, []⟩

def shows (t : Trace) (e : Event) : Bool := e.detail.rank ≤ t.verbosity.rank

def observe (t : Trace) (events : List Event) : Trace :=
  { t with lines := t.lines ++ (events.filter t.shows).map (·.line t.palette) }

theorem observe_append (t : Trace) (es fs : List Event) : t.observe (es ++ fs) = (t.observe es).observe fs := by
  have h : ∀ ls, ({ t with lines := ls } : Trace).shows = t.shows := fun _ => rfl
  simp [observe, h]

def output (t : Trace) : String := String.join (t.lines.map (· ++ "\n"))

end Trace

end CallGrammar
