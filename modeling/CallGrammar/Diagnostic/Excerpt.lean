import CallGrammar.Span
import CallGrammar.Text.Canvas
import CallGrammar.Text.Width

namespace CallGrammar

open Text

structure SourceLine where
  number : Nat
  start : Nat
  stop : Nat
  text : List Char
  deriving DecidableEq, Repr

namespace SourceLine

def first : SourceLine := ⟨1, 0, 0, []⟩

def dropReturn : List Char → List Char
  | '\r' :: cs => cs
  | cs => cs

def collect (line : SourceLine) : List Char → List SourceLine
  | [] => if line.text.isEmpty then [] else [{ line with text := line.text.reverse }]
  | c :: cs =>
      let stop := line.stop + c.utf8Size
      if c = '\n' then
        ⟨line.number, line.start, stop, (dropReturn line.text).reverse⟩ :: collect ⟨line.number + 1, stop, stop, []⟩ cs
      else collect ⟨line.number, line.start, stop, c :: line.text⟩ cs

def ofText (source : String) : List SourceLine :=
  match collect first source.toList with
  | [] => [first]
  | lines => lines

def find (lines : List SourceLine) (offset : Nat) : SourceLine :=
  (lines.find? fun l => l.start ≤ offset ∧ offset < l.stop).getD (lines.getLastD first)

def takeBytes : Nat → List Char → List Char
  | _, [] => []
  | 0, _ => []
  | n + 1, c :: cs => c :: takeBytes (n + 1 - c.utf8Size) cs

def before (line : SourceLine) (offset : Nat) : List Char := takeBytes (offset - line.start) line.text

def textStop (line : SourceLine) : Nat := line.start + (String.ofList line.text).utf8ByteSize

def place (line : SourceLine) (offset : Nat) : Nat × Nat :=
  let before := line.before offset
  (before.length + if line.textStop < offset then 1 else 0, width before)

def isBlank (line : SourceLine) : Bool := line.text.all isSpace

def indent (line : SourceLine) : Nat :=
  (line.text.takeWhile isSpace).foldr (fun c columns => (if c = '\t' then 4 else 1) + columns) 0

def shown (line : SourceLine) : List Char := line.text.flatMap visible

end SourceLine

structure Mark where
  line : Nat
  startChar : Nat
  stopChar : Nat
  start : Nat
  stop : Nat
  label : Option String
  isPrimary : Bool
  deriving DecidableEq, Repr

namespace Mark

def widen (size : Nat) (s : Span) : Span := if s.start = s.stop then ⟨s.start, min (s.start + 1) size⟩ else s

def ofSpan (lines : List SourceLine) (span : Span) (label : Option String) (isPrimary : Bool) : Mark :=
  let line := SourceLine.find lines span.start
  let (startChar, start) := line.place span.start
  let isClosed := (SourceLine.find lines span.stop).number = line.number
  let (stopChar, stop) := if isClosed then line.place span.stop else (line.text.length, width line.text)
  let label := (label.map printable).filter (· ≠ "")
  ⟨line.number, startChar, stopChar, start, if stop = start then start + 1 else stop, label, isPrimary⟩

def hasLabel (m : Mark) : Bool := m.label.isSome

def labelRoom (m : Mark) : Nat :=
  match m.label with
  | none => 0
  | some label => label.utf8ByteSize + 2

def overlaps (m other : Mark) (padding : Nat) : Bool :=
  (other.start ≤ m.start && m.start < other.stop) || (m.start ≤ other.start && other.start < m.stop + padding)

def sameChars (m other : Mark) : Bool := m.startChar = other.startChar && m.stopChar = other.stopChar

def yields (m : Mark) (rest : List Mark) : Bool :=
  m.hasLabel && rest.any fun n => n.overlaps m 0 && (n.hasLabel || !m.sameChars n)

def lowersRest (m : Mark) (level : Nat) (rest : List Mark) : Bool :=
  rest.any fun n => n.hasLabel && n.overlaps m n.labelRoom && (m.hasLabel || (level = 0 && n.stop ≤ m.stop))

def place (level : Nat) : List Mark → List (Nat × Mark) × Nat
  | [] => ([], level)
  | m :: rest =>
      let own := if level = 0 && m.yields rest then 1 else level
      let (placed, last) := place (if m.lowersRest own rest then own + 1 else own) rest
      ((own, m) :: placed, last)

def rightmostFirst (m n : Mark) : Bool := n.start < m.start || (n.start = m.start && n.startChar ≤ m.startChar)

def size (m : Mark) : Nat := m.stop - m.start

def longestFirst (m n : Mark) : Bool := n.size < m.size || (n.size = m.size && (!m.isPrimary || n.isPrimary))

def tone (m : Mark) : Tone := if m.isPrimary then .error else .gutter

def sign (m : Mark) : Char := if m.isPrimary then '^' else '-'

end Mark

structure Stroke where
  row : Nat
  column : Nat
  tone : Tone
  text : List Char
  deriving DecidableEq, Repr

namespace Stroke

def bar (level : Nat) (m : Mark) : List Stroke :=
  if level > 0 && m.hasLabel then (List.range (level + 1)).map fun i => ⟨i + 1, m.start, m.tone, ['|']⟩ else []

def label (level : Nat) (m : Mark) : Option Stroke :=
  m.label.map fun text =>
    if level = 0 then ⟨1, m.stop + 1, m.tone, text.toList⟩ else ⟨level + 2, m.start, m.tone, text.toList⟩

def underline (m : Mark) : Stroke := ⟨1, m.start, m.tone, List.replicate m.size m.sign⟩

def ofMarks (marks : List Mark) : List Stroke × Nat :=
  let (placed, last) := Mark.place 0 (marks.mergeSort Mark.rightmostFirst)
  let bars := placed.flatMap fun (level, m) => bar level m
  let labels := placed.filterMap fun (level, m) => label level m
  let underlines := ((placed.map (·.2)).mergeSort Mark.longestFirst).map underline
  (bars ++ labels ++ underlines, if last = 0 then 1 else last + 2)

def draw (base : Row) (offset : Nat) (strokes : List Stroke) (row : Nat) : Row :=
  (strokes.filter (·.row = row)).foldl (fun r s => r.write (offset + s.column) s.tone s.text) base

end Stroke

structure Margin where
  digits : Nat
  cut : Nat
  deriving DecidableEq, Repr

namespace Margin

def code (g : Margin) : Nat := g.digits + 3

def dots : List Char := ['.', '.', '.']

def bare (g : Margin) : Row := Row.write [] (g.digits + 1) .gutter ['|']

def numbered (g : Margin) (number : Nat) : Row :=
  let digits := (toString number).toList
  g.bare.write 0 .gutter (List.replicate (g.digits - digits.length) ' ' ++ digits)

def writeCode (g : Margin) (row : Row) (column : Nat) (cs : List Char) : Row :=
  if cs.isEmpty then row else row.write (g.code + column) .plain cs

def sourceRow (g : Margin) (line : SourceLine) : Row × Nat :=
  let row := g.numbered line.number
  if g.cut = 0 then (g.writeCode row 0 line.shown, 0)
  else
    let (gone, code) := dropColumns g.cut line.shown
    let (covered, rest) := dropColumns dots.length code
    (g.writeCode (row.write g.code .gutter dots) covered rest, gone)

def markRows (g : Margin) (gone : Nat) (marks : List Mark) : List Row :=
  let (strokes, rows) := Stroke.ofMarks marks
  let shifted := strokes.map fun s => { s with column := s.column - gone }
  (List.range rows).map fun i => Stroke.draw g.bare g.code shifted (i + 1)

def gapRows (g : Margin) (lines : List SourceLine) (above below : Nat) : List Row :=
  if below = above + 2 then (lines.filter (·.number = above + 1)).map fun l => (g.sourceRow l).1
  else if above + 2 < below then [Row.ofChars .gutter dots]
  else []

def rows (g : Margin) (lines : List SourceLine) (marks : List Mark) : List SourceLine → List Row
  | [] => []
  | line :: rest =>
      let gap := match rest with
        | [] => []
        | next :: _ => g.gapRows lines line.number next.number
      let (row, gone) := g.sourceRow line
      row :: g.markRows gone (marks.filter (·.line = line.number)) ++ gap ++ g.rows lines marks rest

end Margin

structure Excerpt where
  lines : List SourceLine
  marks : List Mark
  deriving DecidableEq, Repr

namespace Excerpt

def marked (e : Excerpt) : List SourceLine := e.lines.filter fun l => e.marks.any (·.line = l.number)

def lastNumber (e : Excerpt) : Nat := (e.marked.map (·.number)).foldl max 1

def freeColumns (e : Excerpt) : Nat :=
  match ((e.marked.filter fun l => !l.isBlank).map (·.indent)).min? with
  | none => 0
  | some indent => (e.marks.map (·.start)).foldl min indent

def cut (e : Excerpt) : Nat := if e.freeColumns > 26 then e.freeColumns - 22 else 0

def rows (e : Excerpt) (digits : Nat) : List Row :=
  let g : Margin := ⟨digits, e.cut⟩
  g.bare :: g.rows e.lines e.marks e.marked

end Excerpt

end CallGrammar
