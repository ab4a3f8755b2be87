import PatternSyntax.ParseError.Basic

/-!
# The unread part of a pattern

Reading goes from left to right, one character at a time, and never looks
further than the next character. What remains to be read is a list; how much
has been read is counted beside it, in characters and in bytes, because a
rejection is reported in both.
-/

namespace PatternSyntax

/-- What is left of a pattern, and how much of it came before. -/
structure Input where
  rest : List Char
  /-- Characters read so far. -/
  consumed : Nat
  /-- Bytes read so far. -/
  offset : Nat
  deriving DecidableEq

namespace Input

def ofList (pattern : List Char) : Input :=
  ⟨pattern, 0, 0⟩

def peek (i : Input) : Option Char :=
  i.rest.head?

/-- Reads one character; at the end there is none to read. -/
def advance (i : Input) : Input :=
  match i.rest with
  | [] => i
  | c :: rest => ⟨rest, i.consumed + 1, i.offset + c.utf8Size⟩

/-- The place of the next character, counted from one. -/
def position (i : Input) : Nat :=
  i.consumed + 1

/-- The bytes of the next character; none at the end. -/
def span (i : Input) : Span :=
  match i.rest with
  | [] => ⟨i.offset, 0⟩
  | c :: _ => ⟨i.offset, c.utf8Size⟩

def reject (i : Input) (cause : Cause) : ParseError :=
  ⟨cause, i.position, i.span⟩

def unexpected (i : Input) : ParseError :=
  i.reject (.unexpected i.peek)

/-- A rejection because `closer` should have come next. -/
def unclosed (i : Input) (closer : Char) : ParseError :=
  i.reject (.unclosed closer i.peek)

/-! ## What one step reads

Every loop of the parser ends because a step shortens the rest. -/

theorem rest_of_peek {i : Input} {c : Char} (h : i.peek = some c) :
    i.rest = c :: i.advance.rest := by
  obtain ⟨rest, consumed, offset⟩ := i
  cases rest with
  | nil => simp [peek] at h
  | cons d rest => simp_all [peek, advance]

theorem rest_of_peek_none {i : Input} (h : i.peek = none) : i.rest = [] := by
  simpa [peek] using h

theorem peek_of_rest {i : Input} {c : Char} {rest : List Char}
    (h : i.rest = c :: rest) :
    i.peek = some c := by
  simp [peek, h]

theorem advance_rest {i : Input} {c : Char} {rest : List Char}
    (h : i.rest = c :: rest) :
    i.advance.rest = rest := by
  simp [advance, h]

theorem advance_offset {i : Input} {c : Char} (h : i.peek = some c) :
    i.advance.offset = i.offset + c.utf8Size := by
  rw [advance, rest_of_peek h]

theorem advance_lt {i : Input} {c : Char} (h : i.peek = some c) :
    i.advance.rest.length < i.rest.length := by
  rw [rest_of_peek h]
  simp

theorem advance_le (i : Input) : i.advance.rest.length ≤ i.rest.length := by
  obtain ⟨rest, consumed, offset⟩ := i
  cases rest <;> simp [advance]

/-- What is left of an input when a part of it, possibly none, has been read. -/
structure Rest (start : Input) where
  input : Input
  le : input.rest.length ≤ start.rest.length

end Input

end PatternSyntax
