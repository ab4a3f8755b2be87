import PatternSyntax.Alphabet
import PatternSyntax.Atom
import PatternSyntax.Tree.Basic

/-!
# The grammar of patterns

Which texts are patterns, and which tree each of them has, said without a
parser. Every relation here is between a text and what it denotes, and is about
the whole of the text. The number in front bounds how many groups may be open
at once, so opening a group uses up one.

The rules follow the productions

    regex  = branch ( '|' branch )*
    branch = factor+
    factor = base '*'?
    base   = literal | '(' regex ')' | '[' '^'? item+ ']'

with both repetitions unrolled from the left. That makes the first operand the
left child, and what the others denote together the right one.

Inside brackets the rules alone would be ambiguous, as a dash is a literal too.
A character denotes itself only if no dash comes behind it.
-/

namespace PatternSyntax.Grammar

/-- The text between the brackets, or a rear part of it, and its items. -/
inductive Items : List Char → List BracketItem → Prop where
  | nil : Items [] []
  | single {c : Char} {rest : List Char} {items : List BracketItem} :
      isLiteral c = true → rest.head? ≠ some '-' → Items rest items →
      Items (c :: rest) (.single c :: items)
  | range {lo hi : Char} {rest : List Char} {items : List BracketItem} :
      isLiteral lo = true → isLiteral hi = true → lo ≤ hi → Items rest items →
      Items (lo :: '-' :: hi :: rest) (.range lo hi :: items)

/-- A bracket expression. -/
inductive IsBracket : List Char → Bracket → Prop where
  | plain {body : List Char} {items : List BracketItem} {h : items ≠ []} :
      Items body items → IsBracket ('[' :: (body ++ [']'])) ⟨false, items, h⟩
  | negated {body : List Char} {items : List BracketItem} {h : items ≠ []} :
      Items body items →
      IsBracket ('[' :: '^' :: (body ++ [']'])) ⟨true, items, h⟩

mutual

/-- Branches with bars between them. -/
inductive Regex : Nat → List Char → Tree Atom → Prop where
  | last {n : Nat} {s : List Char} {t : Tree Atom} : Branch n s t → Regex n s t
  | more {n : Nat} {s rest : List Char} {t u : Tree Atom} :
      Branch n s t → Regex n rest u → Regex n (s ++ '|' :: rest) (.alt t u)

/-- Factors one after the other. -/
inductive Branch : Nat → List Char → Tree Atom → Prop where
  | last {n : Nat} {s : List Char} {t : Tree Atom} : Factor n s t → Branch n s t
  | more {n : Nat} {s rest : List Char} {t u : Tree Atom} :
      Factor n s t → Branch n rest u → Branch n (s ++ rest) (.concat t u)

/-- A base, starred or not. -/
inductive Factor : Nat → List Char → Tree Atom → Prop where
  | once {n : Nat} {s : List Char} {t : Tree Atom} : Base n s t → Factor n s t
  | star {n : Nat} {s : List Char} {t : Tree Atom} :
      Base n s t → Factor n (s ++ ['*']) (.star t)

/-- A literal, a group or a bracket expression. -/
inductive Base : Nat → List Char → Tree Atom → Prop where
  | literal {n : Nat} {c : Char} : isLiteral c = true →
      Base n [c] (.literal (.char c))
  | group {n : Nat} {s : List Char} {t : Tree Atom} :
      Regex n s t → Base (n + 1) ('(' :: (s ++ [')'])) t
  | bracket {n : Nat} {s : List Char} {b : Bracket} :
      IsBracket s b → Base n s (.literal (.bracket b))

end

/-- A whole pattern: a mark, or a regex that is not spelled like one. -/
inductive Pattern (n : Nat) : List Char → Tree Atom → Prop where
  | emptyWord : Pattern n [emptyWordMark] .emptyWord
  | emptySet : Pattern n [emptySetMark] .emptySet
  | regex {s : List Char} {t : Tree Atom} :
      s ≠ [emptyWordMark] → s ≠ [emptySetMark] → Regex n s t → Pattern n s t

/-- A pattern that is not one of the marks alone is a regex. -/
theorem Pattern.regex_of_ne {n : Nat} {s : List Char} {t : Tree Atom}
    (h : Pattern n s t) (hword : s ≠ [emptyWordMark])
    (hset : s ≠ [emptySetMark]) : Regex n s t := by
  cases h with
  | emptyWord => exact absurd rfl hword
  | emptySet => exact absurd rfl hset
  | regex _ _ hs => exact hs

end PatternSyntax.Grammar
