import PatternSyntax.Alphabet

/-!
# Syntax trees

The tree of a regular expression over symbols of any type. A pattern of many
operands nests as deep as it is long, since concatenation and alternation nest
to the right. So whatever runs over a tree keeps its own list of what is left to
do. Beside each such function stands the recursive definition of what it
computes.
-/

namespace PatternSyntax

inductive Tree (σ : Type) where
  | emptyWord
  | emptySet
  | literal (symbol : σ)
  | concat (left right : Tree σ)
  | alt (left right : Tree σ)
  | star (inner : Tree σ)

namespace Tree

variable {σ ρ : Type}

def nodes : Tree σ → Nat
  | emptyWord => 1
  | emptySet => 1
  | literal _ => 1
  | concat l r => l.nodes + r.nodes + 1
  | alt l r => l.nodes + r.nodes + 1
  | star x => x.nodes + 1

/-- The number of nodes on the longest way from the root down. -/
def height : Tree σ → Nat
  | emptyWord => 1
  | emptySet => 1
  | literal _ => 1
  | concat l r => max l.height r.height + 1
  | alt l r => max l.height r.height + 1
  | star x => x.height + 1

theorem height_pos (t : Tree σ) : 0 < t.height := by
  cases t <;> simp [height]

/-- The symbols of the leaves, from left to right. -/
def leaves : Tree σ → List σ
  | emptyWord => []
  | emptySet => []
  | literal s => [s]
  | concat l r => l.leaves ++ r.leaves
  | alt l r => l.leaves ++ r.leaves
  | star x => x.leaves

def map (f : σ → ρ) : Tree σ → Tree ρ
  | emptyWord => emptyWord
  | emptySet => emptySet
  | literal s => literal (f s)
  | concat l r => concat (l.map f) (r.map f)
  | alt l r => alt (l.map f) (r.map f)
  | star x => star (x.map f)

def isLiteral : Tree σ → Bool
  | literal _ => true
  | _ => false

def isConcat : Tree σ → Bool
  | concat _ _ => true
  | _ => false

def isAlt : Tree σ → Bool
  | alt _ _ => true
  | _ => false

end Tree

end PatternSyntax
