import PatternSyntax.CharClass.Basic
import PatternSyntax.Parser.Productions

/-!
# Reading a whole pattern

A pattern is a regex that is read to its end, or one of the two marks alone.
The marks make no symbol, so the factory is not asked for one.
-/

namespace PatternSyntax

/-- The number of groups that may be open at once, if nothing else is asked
for. -/
def defaultNestLimit : UInt32 := 250

namespace Parser

variable {τ σ : Type}

def parseList (p : Parser τ σ) (pattern : List Char) (made : τ) :
    Outcome τ (Tree σ) :=
  if pattern = [emptyWordMark] then (.ok .emptyWord, made)
  else if pattern = [emptySetMark] then (.ok .emptySet, made)
  else
    match p.regex (State.ofList pattern) made with
    | (.ok whole, made) =>
      match whole.next.peek with
      | none => (.ok whole.value, made)
      | some _ => (.error whole.next.input.unexpected, made)
    | (.error e, made) => (.error e, made)

def parse (p : Parser τ σ) (pattern : String) (made : τ) : Outcome τ (Tree σ) :=
  p.parseList pattern.toList made

end Parser

/-- Reads a pattern into a tree of character classes, with so many groups open
at once at most. -/
def parseWithin (nestLimit : UInt32) (pattern : String) :
    Except ParseError (Tree CharClass) :=
  ((⟨.pure CharClass.ofAtom, nestLimit⟩ : Parser Unit CharClass).parse
    pattern ()).1

def parse (pattern : String) : Except ParseError (Tree CharClass) :=
  parseWithin defaultNestLimit pattern

end PatternSyntax
