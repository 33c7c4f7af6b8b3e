namespace CallGrammar

inductive LogLevel where
  | off
  | error
  | warn
  | info
  | debug
  | trace
  deriving DecidableEq, Repr

namespace LogLevel

def all : List LogLevel := [.off, .error, .warn, .info, .debug, .trace]

def rank : LogLevel → Nat
  | .off => 0
  | .error => 1
  | .warn => 2
  | .info => 3
  | .debug => 4
  | .trace => 5

def name : LogLevel → String
  | .off => "off"
  | .error => "error"
  | .warn => "warn"
  | .info => "info"
  | .debug => "debug"
  | .trace => "trace"

def title : LogLevel → String
  | .off => "OFF"
  | .error => "ERROR"
  | .warn => "WARN"
  | .info => "INFO"
  | .debug => "DEBUG"
  | .trace => "TRACE"

def ofName? (name : String) : Option LogLevel := all.find? (·.name = name)

end LogLevel

inductive LogTopic where
  | grammar
  | blueprint
  | chain
  | command
  deriving DecidableEq, Repr

structure LogRecord where
  level : LogLevel
  topic : LogTopic
  text : String
  deriving DecidableEq, Repr

def LogRecord.upTo (level : LogLevel) (records : List LogRecord) : List LogRecord :=
  records.filter (·.level.rank ≤ level.rank)

end CallGrammar
