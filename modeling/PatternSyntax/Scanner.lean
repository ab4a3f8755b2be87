import PatternSyntax.Alphabet
import PatternSyntax.ParseError.Basic

/-!
# A flat recogniser

Whether a pattern is accepted, and where and why it is not, can be decided
without a tree and without recursion: one pass from left to right that keeps a
mode and the number of open groups. The mode records what may come next.
-/

namespace PatternSyntax.Scanner

inductive Mode where
  /-- A term has to begin. -/
  | term
  /-- A term has ended that may still be starred. -/
  | ended
  /-- A star has ended a term. -/
  | starred
  /-- A bracket has been opened. -/
  | opened
  /-- A bracket has been opened and negated. -/
  | negated
  /-- In brackets, behind a single character. -/
  | single (lo : Char)
  /-- In brackets, behind a lower bound and a dash. -/
  | dash (lo : Char)
  /-- In brackets, behind a range. -/
  | range
  deriving DecidableEq

inductive Step where
  | go (mode : Mode) (groups : Nat)
  | stop (cause : Cause)

/-- A character that begins a term. -/
def beginTerm (limit : UInt32) (groups : Nat) (c : Char) : Step :=
  if isLiteral c then .go .ended groups
  else if c = '[' then .go .opened groups
  else if c = '(' then
    if groups < limit.toNat then .go .term (groups + 1)
      else .stop (.tooDeep limit)
  else .stop (.unexpected (some c))

/-- A character behind a complete term that is not starred further. -/
def afterTerm (limit : UInt32) (groups : Nat) (c : Char) : Step :=
  if c = '|' then .go .term groups
  else if c = ')' ∧ 0 < groups then .go .ended (groups - 1)
  else beginTerm limit groups c

def step (limit : UInt32) (mode : Mode) (groups : Nat) (c : Char) : Step :=
  match mode with
  | .term => beginTerm limit groups c
  | .ended => if c = '*' then .go .starred groups else afterTerm limit groups c
  | .starred => afterTerm limit groups c
  | .opened =>
    if c = '^' then .go .negated groups
    else if isLiteral c then .go (.single c) groups
    else .stop .emptyBracket
  | .negated =>
    if isLiteral c then .go (.single c) groups else .stop .emptyBracket
  | .single lo =>
    if c = '-' then .go (.dash lo) groups
    else if isLiteral c then .go (.single c) groups
    else if c = ']' then .go .ended groups
    else .stop (.unclosed ']' (some c))
  | .dash lo =>
    if isLiteral c then
      if lo ≤ c then .go .range groups else .stop (.descendingRange lo c)
    else .stop (.unexpected (some c))
  | .range =>
    if isLiteral c then .go (.single c) groups
    else if c = ']' then .go .ended groups
    else .stop (.unclosed ']' (some c))

/-- The end of the pattern in a mode: nothing, or the cause of a rejection. -/
def atEnd (mode : Mode) (groups : Nat) : Option Cause :=
  match mode with
  | .term => some (.unexpected none)
  | .ended => if groups = 0 then none else some (.unclosed ')' none)
  | .starred => if groups = 0 then none else some (.unclosed ')' none)
  | .opened => some .emptyBracket
  | .negated => some .emptyBracket
  | .single _ => some (.unclosed ']' none)
  | .dash _ => some (.unexpected none)
  | .range => some (.unclosed ']' none)

/-- The verdict on the rest of a pattern, of which the next character stands at
`position`: nothing if it is accepted, else the cause and the place of the
rejection. -/
def scan (limit : UInt32) (mode : Mode) (groups position : Nat)
    (rest : List Char) :
    Option (Cause × Nat) :=
  match rest with
  | [] => (atEnd mode groups).map fun cause => (cause, position)
  | c :: rest =>
    match step limit mode groups c with
    | .go mode groups => scan limit mode groups (position + 1) rest
    | .stop cause => some (cause, position)

def verdict (limit : UInt32) (pattern : List Char) : Option (Cause × Nat) :=
  scan limit .term 0 1 pattern

end PatternSyntax.Scanner
