import PatternSyntax.CharClass.Basic
import PatternSyntax.Text.Quoted

/-!
# Writing a character class

A class has two texts. As a pattern it is written in the shortest form that is
read back as the same class: one character as itself, everything else as a
bracket expression. A range that begins with a dash is moved to the front,
because after another character the dash would be taken for the sign of a
range.

The outline is for inspection: it names the parts of the value and quotes every
bound.
-/

namespace PatternSyntax

namespace CharRange

def toPattern (r : CharRange) : String :=
  if r.lo = r.hi then String.singleton r.lo
  else String.singleton r.lo ++ "-" ++ String.singleton r.hi

def outline (quote : Char → String) (r : CharRange) : String :=
  "(" ++ quote r.lo ++ ", " ++ quote r.hi ++ ")"

end CharRange

namespace CharClass

/-- The ranges in the order in which a bracket expression lists them. -/
def printOrder (ranges : List CharRange) : List CharRange :=
  ranges.filter (fun r => r.lo == '-') ++ ranges.filter (fun r => r.lo != '-')

def toBracketText (s : CharClass) : String :=
  "[" ++ (if s.negated then "^" else "")
    ++ String.join ((printOrder s.ranges).map CharRange.toPattern) ++ "]"

def toPattern (s : CharClass) : String :=
  match s.negated, s.ranges with
  | false, [r] => if r.lo = r.hi then String.singleton r.lo else s.toBracketText
  | _, _ => s.toBracketText

/-- The class with its parts named, the bounds quoted as the caller wishes. -/
def outlineWith (quote : Char → String) (s : CharClass) : String :=
  "CharClass \x7b negated: " ++ (if s.negated then "true" else "false")
    ++ ", ranges: ["
    ++ String.intercalate ", " (s.ranges.map (CharRange.outline quote))
    ++ "] \x7d"

def outline (shown : Char → Bool) (s : CharClass) : String :=
  s.outlineWith (quoteChar shown)

end CharClass

end PatternSyntax
