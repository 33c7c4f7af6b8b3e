import CallGrammar.Expr.Parser

namespace CallGrammar

namespace Descent

structure Cursor where
  ahead : List Token
  terms : TermTable
  depth : Nat

def Cursor.Before (s s' : Cursor) : Prop := ∃ ts : List Token, ts ≠ [] ∧ s.ahead = ts ++ s'.ahead

theorem Cursor.Before.trans {s s' s'' : Cursor} (h : s.Before s') (h' : s'.Before s'') : s.Before s'' := by
  obtain ⟨ts, hne, hts⟩ := h
  obtain ⟨us, _, hus⟩ := h'
  exact ⟨ts ++ us, by simp [hne], by rw [hts, hus, List.append_assoc]⟩

theorem Cursor.Before.length_lt {s s' : Cursor} (h : s.Before s') : s'.ahead.length < s.ahead.length := by
  obtain ⟨ts, hne, hts⟩ := h
  have hpos := List.length_pos_iff.mpr hne
  rw [hts, List.length_append]
  omega

structure Reading (α : Type) (s : Cursor) where
  value : α
  next : Cursor
  before : s.Before next

abbrev Attempt (α : Type) := ExceptT ParseError Option α

namespace Cursor

def bump? : (s : Cursor) → Option (Reading Token s)
  | ⟨[], _, _⟩ => none
  | ⟨t :: ts, terms, depth⟩ => some ⟨t, ⟨ts, terms, depth⟩, [t], by simp, rfl⟩

def eat? (kind : TokenKind) (s : Cursor) : Option (Reading Token s) := s.bump?.filter (·.value.kind = kind)

def atEnd (s : Cursor) : Bool :=
  match s.bump? with
  | none => true
  | some t => t.value.kind = .parenClose || t.value.kind = .pipe

def enter (s : Cursor) : Cursor := { s with depth := s.depth + 1 }

def leave (s : Cursor) : Cursor := { s with depth := s.depth - 1 }

def place (source : String) (s : Cursor) : Span :=
  match s.bump? with
  | none => .point (endOffset source)
  | some t => t.value.span

end Cursor

section

variable (limit : Option Nat) (source : String)

def occurrence {s : Cursor} (last : Reading Token s) (term : Term) (span : Span) : Reading (Expr Occurrence) s :=
  let (terms, id) := last.next.terms.intern term
  ⟨.term ⟨id, term, span⟩, { last.next with terms }, last.before⟩

def reference {s : Cursor} (name : Reading Token s) : Attempt (Reading (Expr Occurrence) s) := do
  let text ← name.value.span.slice? source
  match name.next.eat? .colon with
  | none => pure (occurrence name (.plain text) name.value.span)
  | some colon =>
      match colon.next.eat? .ident with
      | none => throw (.malformed (colon.next.place source) (.expectedAlias text name.value.span))
      | some callable => do
          let callableText ← callable.value.span.slice? source
          let span ← name.value.span.cover? callable.value.span
          pure (occurrence ⟨callable.value, callable.next, name.before.trans (colon.before.trans callable.before)⟩
            ⟨text, callableText⟩ span)

mutual

def alternation (s : Cursor) : Attempt (Reading (List (Expr Occurrence)) s) := do
  let first ← sequence s
  match first.next.eat? .pipe with
  | none => pure ⟨[.seq first.value], first.next, first.before⟩
  | some bar => do
      let others ← alternation bar.next
      pure ⟨.seq first.value :: others.value, others.next, first.before.trans (bar.before.trans others.before)⟩
termination_by (s.ahead.length, 4)
decreasing_by
  · exact Prod.Lex.right _ (by omega)
  · exact Prod.Lex.left _ _ (first.before.trans bar.before).length_lt

def sequence (s : Cursor) : Attempt (Reading (List (Expr Occurrence)) s) := do
  let first ← item s
  if first.next.atEnd then pure ⟨[first.value], first.next, first.before⟩
  else do
    let others ← sequence first.next
    pure ⟨first.value :: others.value, others.next, first.before.trans others.before⟩
termination_by (s.ahead.length, 3)
decreasing_by
  · exact Prod.Lex.right _ (by omega)
  · exact Prod.Lex.left _ _ first.before.length_lt

def item (s : Cursor) : Attempt (Reading (Expr Occurrence) s) := do
  let operand ← atom s
  match operand.next.bump? with
  | none => pure operand
  | some t =>
      match Parser.State.quantifier? t.value.kind operand.value with
      | none => pure operand
      | some e => pure ⟨e, t.next, operand.before.trans t.before⟩
termination_by (s.ahead.length, 2)
decreasing_by exact Prod.Lex.right _ (by omega)

def atom (s : Cursor) : Attempt (Reading (Expr Occurrence) s) :=
  match s.bump? with
  | none => throw (.malformed (s.place source) (.expectedTerm none))
  | some t =>
      match t.value.kind with
      | .ident => reference source t
      | .parenOpen => group t
      | kind => throw (.malformed t.value.span (.expectedTerm (some kind)))
termination_by (s.ahead.length, 1)
decreasing_by exact Prod.Lex.right _ (by omega)

def group {s : Cursor} (opened : Reading Token s) : Attempt (Reading (Expr Occurrence) s) :=
  if limit.any (· ≤ opened.next.depth) then throw .tooDeep
  else do
    let inner ← alternation opened.next.enter
    match inner.next.leave.eat? .parenClose with
    | none => throw (.malformed (inner.next.place source) (.unclosedGroup opened.value.span))
    | some closed => pure ⟨.alt inner.value, closed.next, opened.before.trans (inner.before.trans closed.before)⟩
termination_by (s.ahead.length, 0)
decreasing_by exact Prod.Lex.left _ _ opened.before.length_lt

end

def root (tokens : List Token) : Attempt Parsed := do
  let whole ← alternation limit source ⟨tokens, .empty, 0⟩
  match whole.next.bump? with
  | none => pure ⟨.alt whole.value, whole.next.terms⟩
  | some t => do
      let text ← t.value.span.slice? source
      throw (.malformed t.value.span (.trailingInput text))

end

end Descent

def parseTokens? (limit : Option Nat) (source : String) (tokens : List Token) : Option (Except ParseError Parsed) :=
  (Descent.root limit source tokens).run

def parse? (limit : Option Nat) (source : String) : Option (Except ParseError Parsed) :=
  (lex? source).bind (parseTokens? limit source)

end CallGrammar
