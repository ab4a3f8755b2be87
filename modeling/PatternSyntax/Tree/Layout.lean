import PatternSyntax.Tree.Basic

/-!
# Layouts

A layout says how a tree is written in terms of its subtrees: as a list of
pieces, each either a fixed text or a subtree that is written in the same way.
Rendering keeps the pieces still to be written in a list, takes the first one
off, and puts the pieces of a subtree in the place of the subtree.

That this ends is part of what a layout is. The pieces of a tree have to weigh
less than the tree, where a text weighs one and a tree eight for each of its
nodes. A node may thus bring along seven texts of its own, which is more than
any layout here needs.
-/

namespace PatternSyntax.Tree

variable {σ : Type}

/-- A part of a tree's text. -/
inductive Piece (σ : Type) where
  | text (s : String)
  | tree (t : Tree σ)

def Piece.weight : Piece σ → Nat
  | text _ => 1
  | tree t => 8 * t.nodes

def weight : List (Piece σ) → Nat
  | [] => 0
  | p :: rest => p.weight + weight rest

theorem weight_append (first second : List (Piece σ)) :
    weight (first ++ second) = weight first + weight second := by
  induction first with
  | nil => simp [weight]
  | cons p rest ih =>
      rw [List.cons_append, weight, weight, ih]
      omega

/-- A way to write trees piece by piece. -/
structure Layout (σ : Type) where
  pieces : Tree σ → List (Piece σ)
  shrinks : ∀ t, weight (pieces t) < 8 * t.nodes

namespace Layout

/-- Adds the texts of all pending pieces to what is written. -/
def emit (layout : Layout σ) (pending : List (Piece σ)) (written : String) :
    String :=
  match pending with
  | [] => written
  | .text s :: rest => layout.emit rest (written ++ s)
  | .tree t :: rest => layout.emit (layout.pieces t ++ rest) written
termination_by weight pending
decreasing_by
  · simp [weight, Piece.weight]
  · have := layout.shrinks t
    simp only [weight_append, weight, Piece.weight]
    omega

def render (layout : Layout σ) (t : Tree σ) : String :=
  layout.emit [.tree t] ""

/-! ## Rendering is recursive

The list of pending pieces is a detail of the computation. What is written
already does not matter to what follows, so the text of a list is the texts of
its pieces one after the other, and the text of a tree is that of its pieces. -/

theorem emit_written (layout : Layout σ) (pending : List (Piece σ))
    (written : String) :
    layout.emit pending written = written ++ layout.emit pending "" := by
  match pending with
  | [] => simp [emit]
  | .text s :: rest =>
      rw [emit, emit, emit_written layout rest (written ++ s),
        emit_written layout rest ("" ++ s)]
      simp [String.append_assoc]
  | .tree t :: rest =>
      rw [emit, emit, emit_written layout (layout.pieces t ++ rest) written]
termination_by weight pending
decreasing_by
  · simp [weight, Piece.weight]
  · simp [weight, Piece.weight]
  · have := layout.shrinks t
    simp only [weight_append, weight, Piece.weight]
    omega

theorem emit_append (layout : Layout σ) (first second : List (Piece σ)) :
    layout.emit (first ++ second) "" =
      layout.emit first "" ++ layout.emit second "" := by
  match first with
  | [] => simp [emit]
  | .text s :: rest =>
      rw [List.cons_append, emit, emit,
        emit_written layout (rest ++ second) ("" ++ s),
        emit_written layout rest ("" ++ s), emit_append layout rest second]
      simp [String.append_assoc]
  | .tree t :: rest =>
      rw [List.cons_append, emit, emit, ← List.append_assoc,
        emit_append layout (layout.pieces t ++ rest) second]
termination_by weight first
decreasing_by
  · simp [weight, Piece.weight]
  · have := layout.shrinks t
    simp only [weight_append, weight, Piece.weight]
    omega

@[simp] theorem emit_nil (layout : Layout σ) : layout.emit [] "" = "" := by
  rw [emit]

@[simp] theorem emit_text_cons (layout : Layout σ) (s : String)
    (rest : List (Piece σ)) :
    layout.emit (.text s :: rest) "" = s ++ layout.emit rest "" := by
  rw [emit, emit_written, String.empty_append]

@[simp] theorem emit_tree_cons (layout : Layout σ) (t : Tree σ)
    (rest : List (Piece σ)) :
    layout.emit (.tree t :: rest) "" =
      layout.render t ++ layout.emit rest "" := by
  rw [← List.singleton_append, emit_append, render]

theorem render_eq (layout : Layout σ) (t : Tree σ) :
    layout.render t = layout.emit (layout.pieces t) "" := by
  rw [render, emit, List.append_nil]

end Layout

end PatternSyntax.Tree
