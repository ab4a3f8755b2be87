import PatternSyntax.Tree.Layout

/-!
# Writing a tree as a pattern

The text uses as few groups as it can: an operand is put in parentheses only
where reading would otherwise build another tree. Both binary nodes nest to the
right when read, so it is their left operand that needs care. A concatenation
binds more tightly than an alternation, and a star more tightly than either.

The two marks need one more rule. A literal whose text is a mark would, as a
whole pattern, be read as the mark; in parentheses it stays a literal.
-/

namespace PatternSyntax.Tree

variable {σ : Type}

def emptyWordText : String :=
  String.singleton emptyWordMark

def emptySetText : String :=
  String.singleton emptySetMark

/-- An operand, in parentheses if it needs them. -/
def operandPieces (grouped : Bool) (t : Tree σ) : List (Piece σ) :=
  if grouped then [.text "(", .tree t, .text ")"] else [.tree t]

/-- A node as part of a pattern. -/
def patternPieces (symbol : σ → String) : Tree σ → List (Piece σ)
  | emptyWord => [.text emptyWordText]
  | emptySet => [.text emptySetText]
  | literal s => [.text (symbol s)]
  | concat l r =>
    operandPieces (l.isAlt || l.isConcat) l ++ operandPieces r.isAlt r
  | alt l r => operandPieces l.isAlt l ++ [.text "|", .tree r]
  | star x => operandPieces (!x.isLiteral) x ++ [.text "*"]

theorem weight_operandPieces (grouped : Bool) (t : Tree σ) :
    weight (operandPieces grouped t) ≤ 8 * t.nodes + 2 := by
  cases grouped <;> simp [operandPieces, weight, Piece.weight]; omega

def patternLayout (symbol : σ → String) : Layout σ where
  pieces := patternPieces symbol
  shrinks t := by
    cases t with
    | emptyWord => simp [patternPieces, weight, Piece.weight, nodes]
    | emptySet => simp [patternPieces, weight, Piece.weight, nodes]
    | literal s => simp [patternPieces, weight, Piece.weight, nodes]
    | concat l r =>
        have hl := weight_operandPieces (l.isAlt || l.isConcat) l
        have hr := weight_operandPieces r.isAlt r
        simp only [patternPieces, weight_append, nodes]
        omega
    | alt l r =>
        have hl := weight_operandPieces l.isAlt l
        have hr : weight [.text "|", .tree r] = 1 + 8 * r.nodes := by
          simp [weight, Piece.weight]
        simp only [patternPieces, weight_append, nodes, hr]
        omega
    | star x =>
        have hx := weight_operandPieces (!x.isLiteral) x
        have hs : weight [(.text "*" : Piece σ)] = 1 := by
          simp [weight, Piece.weight]
        simp only [patternPieces, weight_append, nodes, hs]
        omega

/-- The tree as a pattern, given the texts of its symbols. -/
def toPattern (symbol : σ → String) (t : Tree σ) : String :=
  match t with
  | literal s =>
    let text := symbol s
    if text = emptyWordText ∨ text = emptySetText then "(" ++ text ++ ")"
      else text
  | t => (patternLayout symbol).render t

/-! ## The recursive printer

The same text by recursion on the tree, and how many groups it opens inside one
another. -/

def grouped (needed : Bool) (text : String) : String :=
  if needed then "(" ++ text ++ ")" else text

/-- The tree as part of a pattern. -/
def spelling (symbol : σ → String) : Tree σ → String
  | emptyWord => emptyWordText
  | emptySet => emptySetText
  | literal s => symbol s
  | concat l r =>
    grouped (l.isAlt || l.isConcat) (l.spelling symbol) ++
      grouped r.isAlt (r.spelling symbol)
  | alt l r => grouped l.isAlt (l.spelling symbol) ++ "|" ++ r.spelling symbol
  | star x => grouped (!x.isLiteral) (x.spelling symbol) ++ "*"

theorem emit_operandPieces (layout : Layout σ) (needed : Bool) (t : Tree σ) :
    layout.emit (operandPieces needed t) "" =
      grouped needed (layout.render t) := by
  cases needed <;> simp [operandPieces, grouped, String.append_assoc]

theorem render_patternLayout (symbol : σ → String) (t : Tree σ) :
    (patternLayout symbol).render t = t.spelling symbol := by
  rw [Layout.render_eq]
  show (patternLayout symbol).emit (patternPieces symbol t) "" =
    t.spelling symbol
  cases t with
  | emptyWord => simp [patternPieces, spelling]
  | emptySet => simp [patternPieces, spelling]
  | literal s => simp [patternPieces, spelling]
  | concat l r =>
      simp only [patternPieces, spelling, Layout.emit_append,
        emit_operandPieces, render_patternLayout symbol l,
        render_patternLayout symbol r]
  | alt l r =>
      simp only [patternPieces, spelling, Layout.emit_append,
        emit_operandPieces, Layout.emit_text_cons, Layout.emit_tree_cons,
        Layout.emit_nil, String.append_empty, String.append_assoc,
        render_patternLayout symbol l, render_patternLayout symbol r]
  | star x =>
      simp only [patternPieces, spelling, Layout.emit_append,
        emit_operandPieces, Layout.emit_text_cons, Layout.emit_nil,
        String.append_empty, render_patternLayout symbol x]

/-- The whole tree is one literal, and its text is a mark. -/
def hasMarkText (symbol : σ → String) : Tree σ → Bool
  | literal s => symbol s = emptyWordText ∨ symbol s = emptySetText
  | _ => false

theorem toPattern_eq_spelling (symbol : σ → String) (t : Tree σ) :
    t.toPattern symbol =
      grouped (t.hasMarkText symbol) (t.spelling symbol) := by
  cases t with
  | literal s =>
      simp only [toPattern, hasMarkText, grouped, spelling, decide_eq_true_eq]
  | _ => exact render_patternLayout _ _

/-- The greatest number of groups that are open at once in the spelling. -/
def groupDepth : Tree σ → Nat
  | emptyWord => 0
  | emptySet => 0
  | literal _ => 0
  | concat l r =>
    max (l.groupDepth + (l.isAlt || l.isConcat).toNat)
      (r.groupDepth + r.isAlt.toNat)
  | alt l r => max (l.groupDepth + l.isAlt.toNat) r.groupDepth
  | star x => x.groupDepth + (!x.isLiteral).toNat

end PatternSyntax.Tree
