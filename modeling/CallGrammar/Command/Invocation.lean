import CallGrammar.Log

namespace CallGrammar

inductive ColorChoice where
  | auto
  | always
  | never
  deriving DecidableEq, Repr

namespace ColorChoice

def ofName? : String → Option ColorChoice
  | "auto" => some .auto
  | "always" => some .always
  | "never" => some .never
  | _ => none

def isColored (isTerminal : Bool) : ColorChoice → Bool
  | .auto => isTerminal
  | .always => true
  | .never => false

end ColorChoice

inductive CommandName where
  | check
  | ast
  | dump
  | exec
  | trace
  deriving DecidableEq, Repr

namespace CommandName

def all : List CommandName := [.check, .ast, .dump, .exec, .trace]

def text : CommandName → String
  | .check => "check"
  | .ast => "ast"
  | .dump => "dump"
  | .exec => "exec"
  | .trace => "trace"

def ofText? (text : String) : Option CommandName := all.find? (·.text = text)

def takesCalls : CommandName → Bool
  | .check | .ast | .dump => false
  | .exec | .trace => true

end CommandName

inductive Request where
  | check
  | ast (normalize : Bool)
  | dump (json compact : Bool)
  | exec (tokens : List String) (build compact : Bool)
  | trace (tokens : List String) (build : Bool) (verbose : Nat)
  deriving DecidableEq, Repr

structure Invocation where
  path : Option String
  text : Option String
  color : ColorChoice
  log : LogLevel
  request : Request
  deriving DecidableEq, Repr

inductive Origin where
  | inline (text : String)
  | stdin
  | file (path : String)
  deriving DecidableEq, Repr

namespace Origin

def label : Origin → String
  | .inline _ => "<grammar>"
  | .stdin => "<stdin>"
  | .file path => path

end Origin

def Invocation.origin? (i : Invocation) : Option Origin :=
  match i.text, i.path with
  | some text, _ => some (.inline text)
  | none, some path => some (if path = "-" then .stdin else .file path)
  | none, none => none

end CallGrammar
