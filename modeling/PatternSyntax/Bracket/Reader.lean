import PatternSyntax.Alphabet
import PatternSyntax.Bracket.Basic
import PatternSyntax.Input

/-!
# Reading a bracket expression

The reader starts behind the opening bracket and stops before the closing one,
which it leaves to its caller. A caret at the start negates. After that comes
one item after the other for as long as literals follow.

A dash behind a literal always makes a range, so a dash stands for itself only
where an item begins: first in the brackets, or behind a complete range. The
upper bound has to be a literal; the closing bracket is none, and a dash in
front of it is therefore an error.
-/

namespace PatternSyntax.Bracket

/-- Reads the upper bound of a range, whose lower bound `lo` stood `start` bytes
into the pattern. -/
def readUpper (start : Nat) (lo : Char) (i : Input) :
    Except ParseError (BracketItem × Input) :=
  match i.peek with
  | some hi =>
    if isLiteral hi then
      match BracketItem.range? lo hi with
      | some item => .ok (item, i.advance)
      | none =>
        .error ⟨.descendingRange lo hi, i.position,
          ⟨start, i.offset + hi.utf8Size - start⟩⟩
    else .error i.unexpected
  | none => .error i.unexpected

/-- Reads the item that begins with the next character, the literal `lo`. -/
def readItem (i : Input) (lo : Char) :
    Except ParseError (BracketItem × Input) :=
  if i.advance.peek = some '-' then readUpper i.offset lo i.advance.advance
  else .ok (.single lo, i.advance)

theorem readUpper_le {start : Nat} {lo : Char} {i j : Input}
    {item : BracketItem} (h : readUpper start lo i = .ok (item, j)) :
    j.rest.length ≤ i.rest.length := by
  rw [readUpper] at h
  split at h
  · split at h
    · split at h
      · cases h
        exact i.advance_le
      · cases h
    · cases h
  · cases h

theorem readItem_lt {i j : Input} {lo : Char} {item : BracketItem}
    (hp : i.peek = some lo) (hr : readItem i lo = .ok (item, j)) :
    j.rest.length < i.rest.length := by
  have first := Input.advance_lt hp
  rw [readItem] at hr
  split at hr
  · have dash := i.advance.advance_le
    have upper := readUpper_le hr
    omega
  · cases hr
    exact first

/-- Reads items for as long as literals follow, in brackets whose content began
at `start`. The items read so far are given latest first. -/
def readItems (start i : Input) (le : i.rest.length ≤ start.rest.length)
    (items : List BracketItem) :
    Except ParseError (List BracketItem × Input.Rest start) :=
  match hp : i.peek with
  | some lo =>
    if isLiteral lo then
      match hr : readItem i lo with
      | .ok (item, j) =>
        have item_lt := readItem_lt hp hr
        readItems start j (by omega) (item :: items)
      | .error e => .error e
    else .ok (items.reverse, ⟨i, le⟩)
  | none => .ok (items.reverse, ⟨i, le⟩)
termination_by i.rest.length

/-- Makes a bracket expression of the items that were read, if there are any. -/
def ofRead {start : Input} (negated : Bool)
    (read : Except ParseError (List BracketItem × Input.Rest start)) :
    Except ParseError (Bracket × Input.Rest start) :=
  match read with
  | .ok (items, body) =>
    match ofItems? negated items with
    | some b => .ok (b, body)
    | none => .error (body.input.reject .emptyBracket)
  | .error e => .error e

def readBody (i : Input) : Except ParseError (Bracket × Input.Rest i) :=
  if i.peek = some '^' then ofRead true (readItems i i.advance i.advance_le [])
  else ofRead false (readItems i i (Nat.le_refl _) [])

end PatternSyntax.Bracket
