namespace CallGrammar

structure Span where
  start : Nat
  stop : Nat
  deriving DecidableEq, Repr

namespace Span

def point (offset : Nat) : Span := ⟨offset, offset⟩

def cover (first last : Span) : Span := ⟨first.start, last.stop⟩

def cover? (first last : Span) : Option Span := if first.start ≤ last.stop then some (first.cover last) else none

def cut (s : Span) : Span := ⟨s.start % UInt32.size, s.stop % UInt32.size⟩

def cut? (s : Span) : Option Span := if s.cut.start ≤ s.cut.stop then some s.cut else none

def sliceFrom (s : Span) : Nat → List Char → List Char
  | _, [] => []
  | offset, c :: cs =>
      let rest := s.sliceFrom (offset + c.utf8Size) cs
      if s.start ≤ offset ∧ offset < s.stop then c :: rest else rest

def slice (s : Span) (source : String) : String := String.ofList (s.sliceFrom 0 source.toList)

structure InText (s : Span) (source : String) : Prop where
  le : s.start ≤ s.stop
  start_isValid : String.Pos.Raw.IsValid source ⟨s.start⟩
  stop_isValid : String.Pos.Raw.IsValid source ⟨s.stop⟩

instance (s : Span) (source : String) : Decidable (s.InText source) :=
  decidable_of_iff (s.start ≤ s.stop ∧ String.Pos.Raw.IsValid source ⟨s.start⟩ ∧ String.Pos.Raw.IsValid source ⟨s.stop⟩)
    ⟨fun ⟨hle, hstart, hstop⟩ => ⟨hle, hstart, hstop⟩, fun h => ⟨h.le, h.start_isValid, h.stop_isValid⟩⟩

def slice? (s : Span) (source : String) : Option String := if s.InText source then some (s.slice source) else none

end Span

end CallGrammar
