import PatternSyntax.Bracket.Basic

/-!
# How a bracket expression is spelled

A bracket expression that was read determines the text it was read from: its
items in their order, each range with a dash between its bounds.
-/

namespace PatternSyntax

def BracketItem.spelling : BracketItem → List Char
  | single c => [c]
  | range lo hi => [lo, '-', hi]

def spellItems (items : List BracketItem) : List Char :=
  items.flatMap BracketItem.spelling

def Bracket.spelling (b : Bracket) : List Char :=
  '[' :: ((if b.negated then ['^'] else []) ++ spellItems b.items ++ [']'])

end PatternSyntax
