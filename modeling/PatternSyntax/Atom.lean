import PatternSyntax.Bracket.Spelling

/-!
# Atoms and the symbols made of them

The leaves of a pattern are its atoms: plain characters and bracket
expressions. A parser does not decide what a leaf of the tree holds. It hands
each atom, in source order and once, to a symbol factory, and puts whatever the
factory returns into the tree without looking at it.

A factory may keep a state from one request to the next, for instance to number
its symbols or to share equal ones.
-/

namespace PatternSyntax

/-- A leaf of a pattern as it is spelled. -/
inductive Atom where
  | char (c : Char)
  | bracket (b : Bracket)
  deriving DecidableEq

def Atom.spelling : Atom → List Char
  | char c => [c]
  | bracket b => b.spelling

/-- Makes symbols of type `σ` from atoms, with a state of type `τ`. -/
structure SymbolFactory (τ σ : Type) where
  make : Atom → τ → σ × τ

namespace SymbolFactory

def pure {σ : Type} (symbol : Atom → σ) : SymbolFactory Unit σ where
  make atom log := (symbol atom, log)

/-- The factory whose symbols are the atoms themselves, and which keeps a log of
all requests. -/
def recorder : SymbolFactory (Array Atom) Atom where
  make atom log := (atom, log.push atom)

end SymbolFactory

end PatternSyntax
