namespace CallGrammar

structure Palette where
  state : String
  accept : String
  error : String
  dim : String
  reset : String
  deriving DecidableEq, Repr

namespace Palette

def ansi : Palette := ⟨"\x1b[34m", "\x1b[32m", "\x1b[31m", "\x1b[2m", "\x1b[0m"⟩

def plain : Palette := ⟨"", "", "", "", ""⟩

def ofColored (colored : Bool) : Palette := if colored then ansi else plain

def isColored (p : Palette) : Bool := p.reset ≠ ""

def paint (p : Palette) (color text : String) : String := color ++ text ++ p.reset

def paintState (p : Palette) (label : String) : String := p.paint p.state label

def acceptMark (p : Palette) (isFinal : Bool) : String := if isFinal then " " ++ p.paint p.accept "accept" else ""

theorem paint_plain (text : String) : plain.paint "" text = text := by simp [paint, plain]

end Palette

end CallGrammar
