/-!
# Why a pattern is rejected

A rejection is a cause together with a place. The place is given in both units
a reader may want: a position counts characters from one, for the message, and
a span counts bytes of the UTF-8 text, for an editor or a report that
underlines part of the pattern.

The cause keeps the lookahead it was decided on. That is redundant with the
pattern and the position, but it lets a message be written without the pattern.
-/

namespace PatternSyntax

/-- A stretch of a pattern, in bytes of its UTF-8 text. -/
structure Span where
  offset : Nat
  length : Nat
  deriving DecidableEq

/-- What stopped the reading of a pattern. A missing character means that the
pattern had ended. -/
inductive Cause where
  /-- The lookahead continues no production. -/
  | unexpected (found : Option Char)
  /-- A group or a bracket expression is not closed by the character it
  needs. -/
  | unclosed (expected : Char) (found : Option Char)
  /-- A bracket expression has no item. -/
  | emptyBracket
  /-- The bounds of a range are in the wrong order. -/
  | descendingRange (lo hi : Char)
  /-- One more group would exceed the number that may be open at once. -/
  | tooDeep (limit : UInt32)
  deriving DecidableEq

/-- A cause and where it arose. -/
structure ParseError where
  cause : Cause
  /-- One more than the number of characters read before the failure. -/
  position : Nat
  span : Span
  deriving DecidableEq

end PatternSyntax
