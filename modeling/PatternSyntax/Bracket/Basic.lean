/-!
# Bracket expressions

A bracket expression lists single characters and ranges, and may be negated.
The list keeps the order and the repetitions of its source, so that a consumer
which cares about spelling can see it. A bracket expression without items has
no spelling, and the type has no such value.

A range built by hand may have its bounds in the wrong order. It then holds no
character. Reading a pattern never produces one, since there a descending range
is an error.
-/

namespace PatternSyntax

inductive BracketItem where
  | single (c : Char)
  | range (lo hi : Char)
  deriving DecidableEq

namespace BracketItem

/-- A range whose bounds are in order. -/
def range? (lo hi : Char) : Option BracketItem :=
  if lo ≤ hi then some (.range lo hi) else none

/-- The lower bound; a single character is its own. -/
def lo : BracketItem → Char
  | single c => c
  | range lo _ => lo

def hi : BracketItem → Char
  | single c => c
  | range _ hi => hi

instance : Hashable BracketItem where
  hash item := mixHash (hash item.lo.toNat) (hash item.hi.toNat)

def Covers (item : BracketItem) (c : Char) : Prop :=
  item.lo ≤ c ∧ c ≤ item.hi

instance (item : BracketItem) (c : Char) : Decidable (item.Covers c) :=
  inferInstanceAs (Decidable (_ ∧ _))

end BracketItem

/-- Everything that a bracket expression says about the characters it
matches. -/
structure Bracket where
  negated : Bool
  items : List BracketItem
  nonempty : items ≠ []
  deriving DecidableEq

namespace Bracket

def ofItems? (negated : Bool) (items : List BracketItem) : Option Bracket :=
  if h : items ≠ [] then some ⟨negated, items, h⟩ else none

instance : Hashable Bracket where
  hash b := mixHash (hash b.negated) (hash b.items)

/-- The bracket expression matches the character: an item covers it, or, if
negated, none does. -/
def Matches (b : Bracket) (c : Char) : Prop :=
  if b.negated then ∀ item ∈ b.items, ¬ item.Covers c
  else ∃ item ∈ b.items, item.Covers c

end Bracket

end PatternSyntax
