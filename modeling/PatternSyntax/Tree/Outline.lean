import PatternSyntax.Tree.Layout

/-!
# Writing a tree as nested constructors

The outline names every node and puts its operands in parentheses behind the
name, on one line. It shows the shape that the pattern text leaves implicit.
-/

namespace PatternSyntax.Tree

variable {σ : Type}

/-- A node as a name and its operands. -/
def outlinePieces (symbol : σ → String) : Tree σ → List (Piece σ)
  | emptyWord => [.text "EmptyWord"]
  | emptySet => [.text "EmptySet"]
  | literal s => [.text "Literal", .text "(", .text (symbol s), .text ")"]
  | concat l r =>
    [.text "Concatenation", .text "(", .tree l, .text ", ", .tree r, .text ")"]
  | alt l r =>
    [.text "Alternation", .text "(", .tree l, .text ", ", .tree r, .text ")"]
  | star x => [.text "Star", .text "(", .tree x, .text ")"]

def outlineLayout (symbol : σ → String) : Layout σ where
  pieces := outlinePieces symbol
  shrinks t := by
    cases t <;> simp [outlinePieces, weight, Piece.weight, nodes] <;> omega

/-- The tree as nested constructors, given the texts of its symbols. -/
def outline (symbol : σ → String) (t : Tree σ) : String :=
  (outlineLayout symbol).render t

/-! ## The recursive outline -/

def applied (name operands : String) : String :=
  name ++ "(" ++ operands ++ ")"

/-- The outline by recursion on the tree. -/
def constructorText (symbol : σ → String) : Tree σ → String
  | emptyWord => "EmptyWord"
  | emptySet => "EmptySet"
  | literal s => applied "Literal" (symbol s)
  | concat l r =>
    applied "Concatenation"
      (l.constructorText symbol ++ ", " ++ r.constructorText symbol)
  | alt l r =>
    applied "Alternation"
      (l.constructorText symbol ++ ", " ++ r.constructorText symbol)
  | star x => applied "Star" (x.constructorText symbol)

theorem outline_eq_constructorText (symbol : σ → String) (t : Tree σ) :
    t.outline symbol = t.constructorText symbol := by
  rw [outline, Layout.render_eq]
  show (outlineLayout symbol).emit (outlinePieces symbol t) "" =
    t.constructorText symbol
  have child (x : Tree σ) : (outlineLayout symbol).render x =
      x.outline symbol := rfl
  cases t with
  | emptyWord =>
      simp only [outlinePieces, constructorText, Layout.emit_text_cons,
        Layout.emit_nil, String.append_empty]
  | emptySet =>
      simp only [outlinePieces, constructorText, Layout.emit_text_cons,
        Layout.emit_nil, String.append_empty]
  | literal s =>
      simp only [outlinePieces, constructorText, applied, Layout.emit_text_cons,
        Layout.emit_nil, String.append_empty, String.append_assoc]
  | concat l r =>
      simp only [outlinePieces, constructorText, applied, Layout.emit_text_cons,
        Layout.emit_tree_cons, Layout.emit_nil, String.append_empty,
        String.append_assoc, child, outline_eq_constructorText symbol l,
        outline_eq_constructorText symbol r]
  | alt l r =>
      simp only [outlinePieces, constructorText, applied, Layout.emit_text_cons,
        Layout.emit_tree_cons, Layout.emit_nil, String.append_empty,
        String.append_assoc, child, outline_eq_constructorText symbol l,
        outline_eq_constructorText symbol r]
  | star x =>
      simp only [outlinePieces, constructorText, applied, Layout.emit_text_cons,
        Layout.emit_tree_cons, Layout.emit_nil, String.append_empty,
        String.append_assoc, child, outline_eq_constructorText symbol x]

end PatternSyntax.Tree
