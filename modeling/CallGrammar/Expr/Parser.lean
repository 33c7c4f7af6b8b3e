import CallGrammar.Expr
import CallGrammar.Term
import CallGrammar.Token.Lexer

namespace CallGrammar

structure Occurrence where
  id : TermId
  term : Term
  span : Span
  deriving DecidableEq, Repr

inductive SyntaxError where
  | expectedTerm (found : Option TokenKind)
  | expectedAlias (name : String) (span : Span)
  | unclosedGroup (opened : Span)
  | trailingInput (found : String)
  deriving DecidableEq, Repr

inductive ParseError where
  | tooDeep
  | malformed (position : Span) (cause : SyntaxError)
  deriving DecidableEq, Repr

structure Parsed where
  root : Expr Occurrence
  terms : TermTable
  deriving DecidableEq

namespace Parser

structure Branches where
  done : List (Expr Occurrence)
  items : List (Expr Occurrence)

namespace Branches

def empty : Branches := ⟨[], []⟩

def expr (b : Branches) : Expr Occurrence := .alt (.seq b.items.reverse :: b.done).reverse

def push (b : Branches) (item : Expr Occurrence) : Branches := { b with items := item :: b.items }

def split (b : Branches) : Branches := ⟨.seq b.items.reverse :: b.done, []⟩

end Branches

inductive Pending where
  | nothing
  | name (name : Token)
  | colon (name : Token)
  | atom (atom : Expr Occurrence)

structure State where
  terms : TermTable
  outer : List (Span × Branches)
  current : Branches
  pending : Pending

namespace State

def initial : State := ⟨.empty, [], .empty, .nothing⟩

def occur (s : State) (term : Term) (span : Span) : State :=
  let (terms, id) := s.terms.intern term
  { s with terms, pending := .atom (.term ⟨id, term, span⟩) }

def settleName (s : State) : State :=
  match s.pending with
  | .name name => s.occur (.plain name.text) name.span
  | _ => s

def settleAtom (s : State) : State :=
  match s.pending with
  | .atom atom => { s with current := s.current.push atom, pending := .nothing }
  | _ => s

def settle (s : State) : State := s.settleName.settleAtom

def quantifier? (kind : TokenKind) (atom : Expr Occurrence) : Option (Expr Occurrence) :=
  match kind with
  | .star => some (.star atom)
  | .plus => some (.plus atom)
  | .question => some (.optional atom)
  | _ => none

def quantify? (s : State) (kind : TokenKind) : Option State :=
  match s.pending with
  | .atom atom => (quantifier? kind atom).map fun item => { s with current := s.current.push item, pending := .nothing }
  | _ => none

def begin (limit : Option Nat) (s : State) (t : Token) : Except ParseError State :=
  match t.kind with
  | .ident => .ok { s with pending := .name t }
  | .parenOpen =>
      if limit.any (· ≤ s.outer.length) then .error .tooDeep
      else .ok { s with outer := (t.span, s.current) :: s.outer, current := .empty }
  | .pipe =>
      if s.current.items.isEmpty then .error (.malformed t.span (.expectedTerm (some t.kind)))
      else .ok { s with current := s.current.split }
  | .parenClose =>
      if s.current.items.isEmpty then .error (.malformed t.span (.expectedTerm (some t.kind)))
      else
        match s.outer with
        | [] => .error (.malformed t.span (.trailingInput t.text))
        | (_, enclosing) :: outer => .ok { s with outer, current := enclosing, pending := .atom s.current.expr }
  | _ => .error (.malformed t.span (.expectedTerm (some t.kind)))

def step (limit : Option Nat) (s : State) (t : Token) : Except ParseError State :=
  match s.pending, t.kind with
  | .name name, .colon => .ok { s with pending := .colon name }
  | .colon name, .ident => .ok (s.occur ⟨name.text, t.text⟩ (name.span.cover t.span))
  | .colon name, _ => .error (.malformed t.span (.expectedAlias name.text name.span))
  | _, kind =>
      let named := s.settleName
      match named.quantify? kind with
      | some s => .ok s
      | none => named.settleAtom.begin limit t

def run (limit : Option Nat) : State → List Token → Except ParseError State
  | s, [] => .ok s
  | s, t :: ts =>
      match s.step limit t with
      | .ok s => run limit s ts
      | .error e => .error e

def finish (stop : Nat) (s : State) : Except ParseError Parsed :=
  match s.pending with
  | .colon name => .error (.malformed (.point stop) (.expectedAlias name.text name.span))
  | _ =>
      let settled := s.settle
      if settled.current.items.isEmpty then .error (.malformed (.point stop) (.expectedTerm none))
      else
        match settled.outer with
        | [] => .ok ⟨settled.current.expr, settled.terms⟩
        | (opened, _) :: _ => .error (.malformed (.point stop) (.unclosedGroup opened))

end State

end Parser

def parseTokens (limit : Option Nat) (stop : Nat) (tokens : List Token) : Except ParseError Parsed :=
  match Parser.State.run limit .initial tokens with
  | .ok s => s.finish stop
  | .error e => .error e

def parse (limit : Option Nat) (source : String) : Except ParseError Parsed :=
  parseTokens limit (endOffset source) (lex source)

end CallGrammar
