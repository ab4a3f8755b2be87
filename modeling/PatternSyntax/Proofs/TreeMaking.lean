import PatternSyntax.Atom
import PatternSyntax.Tree.Basic

/-!
# Making the symbols of a whole tree

A parser asks its factory for one symbol after the other, so the tree it
returns is a tree of atoms whose leaves have been handed to the factory from
left to right. That is the only part a factory plays in a parse, and saying it
once lets everything else be said about trees of atoms.

Two factories are of interest by themselves. One without a state replaces each
leaf on its own. The recorder replaces nothing.
-/

namespace PatternSyntax.SymbolFactory

variable {τ σ : Type}

/-- The tree with its atoms made into symbols, from left to right, and what
became of the factory's state. -/
def makeTree (f : SymbolFactory τ σ) : Tree Atom → τ → Tree σ × τ
  | .emptyWord, made => (.emptyWord, made)
  | .emptySet, made => (.emptySet, made)
  | .literal a, made =>
    let (symbol, made) := f.make a made
    (.literal symbol, made)
  | .concat l r, made =>
    let (left, made) := f.makeTree l made
    let (right, made) := f.makeTree r made
    (.concat left right, made)
  | .alt l r, made =>
    let (left, made) := f.makeTree l made
    let (right, made) := f.makeTree r made
    (.alt left right, made)
  | .star x, made =>
    let (inner, made) := f.makeTree x made
    (.star inner, made)

theorem makeTree_literal {f : SymbolFactory τ σ} {a : Atom} {symbol : σ}
    {made made' : τ} (h : f.make a made = (symbol, made')) :
    f.makeTree (.literal a) made = (.literal symbol, made') := by
  rw [makeTree, h]

theorem makeTree_concat {f : SymbolFactory τ σ} {l r : Tree Atom}
    {left right : Tree σ} {made made₁ made₂ : τ}
    (hl : f.makeTree l made = (left, made₁))
    (hr : f.makeTree r made₁ = (right, made₂)) :
    f.makeTree (.concat l r) made = (.concat left right, made₂) := by
  rw [makeTree, hl]
  simp only [hr]

theorem makeTree_alt {f : SymbolFactory τ σ} {l r : Tree Atom}
    {left right : Tree σ} {made made₁ made₂ : τ}
    (hl : f.makeTree l made = (left, made₁))
    (hr : f.makeTree r made₁ = (right, made₂)) :
    f.makeTree (.alt l r) made = (.alt left right, made₂) := by
  rw [makeTree, hl]
  simp only [hr]

theorem makeTree_star {f : SymbolFactory τ σ} {x : Tree Atom} {inner : Tree σ}
    {made made' : τ} (h : f.makeTree x made = (inner, made')) :
    f.makeTree (.star x) made = (.star inner, made') := by
  rw [makeTree, h]

/-- A factory without a state relabels the leaves. -/
theorem makeTree_pure (symbol : Atom → σ) (t : Tree Atom) :
    (SymbolFactory.pure symbol).makeTree t () = (t.map symbol, ()) := by
  induction t with
  | emptyWord => rfl
  | emptySet => rfl
  | literal a => rfl
  | concat l r hl hr => exact makeTree_concat hl hr
  | alt l r hl hr => exact makeTree_alt hl hr
  | star x hx => exact makeTree_star hx

/-- The recorder hands the tree back, and its log grows by the leaves. -/
theorem makeTree_recorder (t : Tree Atom) :
    ∀ log : Array Atom, recorder.makeTree t log =
      (t, log ++ t.leaves.toArray) := by
  induction t with
  | emptyWord => intro log; simp [makeTree, Tree.leaves]
  | emptySet => intro log; simp [makeTree, Tree.leaves]
  | literal a =>
      intro log
      refine makeTree_literal ?_
      simp [recorder, Tree.leaves]
  | concat l r hl hr =>
      intro log
      rw [makeTree_concat (hl log) (hr _)]
      simp [Tree.leaves]
  | alt l r hl hr =>
      intro log
      rw [makeTree_alt (hl log) (hr _)]
      simp [Tree.leaves]
  | star x hx =>
      intro log
      rw [makeTree_star (hx log)]
      simp [Tree.leaves]

end PatternSyntax.SymbolFactory
