/-!
# The alphabet of patterns

Seven characters carry the structure of a pattern; every other character,
whatever its code point, stands for itself. There is no escape: a reserved
character cannot be spelled as a literal at all, not even inside brackets.

Two ordinary characters have a second reading. A pattern that consists of one
of the two marks and nothing else denotes the empty word or the empty set;
anywhere in a longer pattern they are literals like the others.
-/

namespace PatternSyntax

/-- The characters that carry structure and therefore never stand for
themselves. -/
def reserved : List Char :=
  ['|', '*', '^', '(', ')', '[', ']']

/-- A character that stands for itself. -/
def isLiteral (c : Char) : Bool :=
  !reserved.contains c

/-- A character that can begin a term: a literal, a group or a bracket
expression. -/
def startsTerm (c : Char) : Bool :=
  isLiteral c || c == '(' || c == '['

/-- As a whole pattern, the mark of the language that holds only the empty
word. -/
def emptyWordMark : Char := 'ε'

/-- As a whole pattern, the mark of the empty language. -/
def emptySetMark : Char := '∅'

theorem isLiteral_iff {c : Char} :
    isLiteral c = true ↔
      c ≠ '|' ∧ c ≠ '*' ∧ c ≠ '^' ∧ c ≠ '(' ∧ c ≠ ')' ∧ c ≠ '[' ∧ c ≠ ']' := by
  simp [isLiteral, reserved]

theorem startsTerm_iff {c : Char} :
    startsTerm c = true ↔
      c ≠ '|' ∧ c ≠ '*' ∧ c ≠ '^' ∧ c ≠ ')' ∧ c ≠ ']' := by
  by_cases hp : c = '('
  · subst hp; decide
  · by_cases hb : c = '['
    · subst hb; decide
    · simp [startsTerm, isLiteral_iff, hp, hb]

end PatternSyntax
