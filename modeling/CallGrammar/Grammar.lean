import CallGrammar.Dfa.Subsets
import CallGrammar.Diagnostic
import CallGrammar.Expr.Descent
import CallGrammar.Json
import CallGrammar.Log
import CallGrammar.Nfa.Fragment

namespace CallGrammar

structure Limits where
  recursion : Nat
  states : Nat
  deriving DecidableEq, Repr

def Limits.standard : Limits := ⟨256, 4096⟩

inductive CompileError where
  | recursionLimitExceeded
  | stateLimitExceeded (limit : Nat)
  | malformed (diagnostics : List Diagnostic)
  deriving DecidableEq, Repr

namespace CompileError

def message : CompileError → String
  | .recursionLimitExceeded => "recursion limit exceeded"
  | .stateLimitExceeded limit => "automaton exceeds the limit of " ++ toString limit ++ " states"
  | .malformed diagnostics => "grammar parsing failed: " ++ Diagnostic.summary diagnostics

end CompileError

def ParseError.compileError : ParseError → CompileError
  | .tooDeep => .recursionLimitExceeded
  | .malformed position cause => .malformed [cause.diagnostic position]

structure Grammar where
  source : String
  ast : Expr Occurrence
  terms : TermTable
  nfa : Nfa
  subsets : Subsets
  deriving DecidableEq

namespace Grammar

def dfa (g : Grammar) : Dfa := g.subsets.dfa

def cores (g : Grammar) : List (List StateId) := g.subsets.cores.toList.map (·.toList)

def callables (g : Grammar) : List String := g.terms.callables

def expr (g : Grammar) : Expr Term := g.ast.map (·.term)

def debug (text : String) : LogRecord := ⟨.debug, .grammar, text⟩

def compileLogged (limits : Limits) (source : String) : List LogRecord × Except CompileError Grammar :=
  let tokens := lex source
  let lexed := debug ("lexed " ++ toString tokens.length ++ " tokens")
  match parseTokens (some limits.recursion) (endOffset source) tokens with
  | .error e => ([lexed], .error e.compileError)
  | .ok parsed =>
      let read := debug ("parsed grammar with " ++ toString parsed.terms.size ++ " distinct terms")
      let nfa := Nfa.ofExpr (parsed.root.map (·.id))
      let built := debug ("nfa: " ++ toString nfa.size ++ " states")
      match nfa.determinize (some limits.states) with
      | .error e => ([lexed, read, built], .error (.stateLimitExceeded e.limit))
      | .ok subsets =>
          let numbered := debug ("dfa: " ++ toString subsets.dfa.size ++ " states")
          ([lexed, read, built, numbered], .ok ⟨source, parsed.root, parsed.terms, nfa, subsets⟩)

def compile (limits : Limits) (source : String) : Except CompileError Grammar := (compileLogged limits source).2

def compile? (limits : Limits) (source : String) : Option (Except CompileError Grammar) :=
  (parse? (some limits.recursion) source).map fun
    | .error e => .error e.compileError
    | .ok parsed =>
        let nfa := Nfa.ofExpr (parsed.root.map (·.id))
        match nfa.determinize (some limits.states) with
        | .error e => .error (.stateLimitExceeded e.limit)
        | .ok subsets => .ok ⟨source, parsed.root, parsed.terms, nfa, subsets⟩

def blueprintLogged (limits : Limits) (source : String) : List LogRecord × Except CompileError Grammar :=
  match compileLogged limits source with
  | (records, .error e) => (records, .error e)
  | (records, .ok g) =>
      let ready := "blueprint ready: " ++ toString g.terms.size ++ " terms, " ++ toString g.dfa.size ++ " states"
      (records ++ [⟨.debug, .blueprint, ready⟩], .ok g)

end Grammar

def Term.json (t : Term) : Json := .obj [("name", .str t.name), ("alias", .str t.callable)]

def TermTable.json (t : TermTable) : Json := .arr (t.toList.map Term.json)

def DfaState.json (s : DfaState) : Json :=
  .obj [("is_final", .bool s.isFinal), ("transitions", .obj (s.edges.map fun (t, i) => (toString t, .nat i)))]

def Dfa.json (d : Dfa) : Json := .obj [("states", .arr (d.states.toList.map DfaState.json))]

end CallGrammar
