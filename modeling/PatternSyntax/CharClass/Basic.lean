import PatternSyntax.Atom

/-!
# Character classes

A character class is a bracket expression with its spelling forgotten: the
inclusive ranges it covers, ascending and as few as possible, and whether the
class is what lies outside them.

Bringing ranges into that form takes three steps. Ranges whose bounds are in
the wrong order cover nothing and are dropped. The others are sorted by their
lower bounds. Then one pass merges each range into the one before it whenever
the two overlap or no number lies between them. Adjacency is decided on the
code points, so the gap of the surrogates separates the characters on its two
sides although no character lies in it.
-/

namespace PatternSyntax

/-- The characters from `lo` to `hi`, both included. -/
structure CharRange where
  lo : Char
  hi : Char
  deriving DecidableEq

instance : Hashable CharRange where
  hash r := mixHash (hash r.lo.toNat) (hash r.hi.toNat)

namespace CharRange

def covers (r : CharRange) (c : Char) : Bool :=
  r.lo ≤ c && c ≤ r.hi

def le (r s : CharRange) : Bool :=
  r.lo < s.lo || (r.lo == s.lo && r.hi ≤ s.hi)

/-- No code point lies between the first range and a second one that begins no
earlier. -/
def reaches (r s : CharRange) : Bool :=
  s.lo.toNat ≤ r.hi.toNat + 1

/-- The first range, extended to cover a second one that it reaches. -/
def extend (r s : CharRange) : CharRange :=
  ⟨r.lo, if r.hi ≤ s.hi then s.hi else r.hi⟩

end CharRange

/-- Adds a range to merged ones, the latest of which comes first. -/
def absorb (merged : List CharRange) (r : CharRange) : List CharRange :=
  match merged with
  | [] => [r]
  | last :: earlier =>
    if last.reaches r then last.extend r :: earlier else r :: last :: earlier

/-- The fewest ascending ranges that cover the same characters. -/
def mergeRanges (ranges : List CharRange) : List CharRange :=
  let sorted := (ranges.filter fun r => r.lo ≤ r.hi).mergeSort CharRange.le
  (sorted.foldl absorb []).reverse

/-- A set of characters. -/
structure CharClass where
  negated : Bool
  ranges : List CharRange
  deriving DecidableEq, Hashable

namespace CharClass

def single (c : Char) : CharClass :=
  ⟨false, [⟨c, c⟩]⟩

def ofBracket (b : Bracket) : CharClass :=
  ⟨b.negated, mergeRanges (b.items.map fun item => ⟨item.lo, item.hi⟩)⟩

def ofAtom : Atom → CharClass
  | .char c => single c
  | .bracket b => ofBracket b

def contains (s : CharClass) (c : Char) : Bool :=
  (s.ranges.any fun r => r.covers c) != s.negated

/-- The form that every class built from a bracket expression has: ranges with
their bounds in order, ascending, and with a code point between any two. -/
def Canonical (s : CharClass) : Prop :=
  (∀ r ∈ s.ranges, r.lo ≤ r.hi) ∧
    s.ranges.Pairwise fun r t => r.hi.toNat + 1 < t.lo.toNat

end CharClass

end PatternSyntax
