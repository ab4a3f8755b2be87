import PatternSyntax.CharClass.Printer
import PatternSyntax.Parser.Pattern
import PatternSyntax.Tree.Outline
import PatternSyntax.Tree.Printer

/-!
# Runs of the command

A run reads its patterns one after the other, each on its own. A pattern that
is read gives a line on the standard output, one that is rejected gives a
report on the error output. The exit code tells whether any was rejected.

The arguments have been taken apart before a run begins. Two kinds of text are
not made by a run either. How a class is shown in an outline depends on how its
characters are quoted, and a rejection is laid out together with its pattern by
whatever serves the terminal. Both are given to the run as functions.
-/

namespace PatternSyntax.CommandLine

/-- What to do with which patterns. -/
structure Options where
  /-- Print outlines of the trees in place of patterns. -/
  tree : Bool := false
  nestLimit : UInt32 := defaultNestLimit
  patterns : List String

/-- The texts that a run is given. -/
structure Texts where
  /-- A class, as a leaf of an outline. -/
  outline : CharClass → String
  /-- A rejection, shown together with its pattern. -/
  report : ParseError → String → String

structure Output where
  code : Nat
  stdout : String
  stderr : String
  deriving DecidableEq

namespace Options

def render (options : Options) (texts : Texts) (t : Tree CharClass) : String :=
  if options.tree then t.outline texts.outline
  else t.toPattern CharClass.toPattern

/-- Adds to the output what one pattern gives. -/
def addPattern (options : Options) (texts : Texts) (output : Output)
    (pattern : String) : Output :=
  match parseWithin options.nestLimit pattern with
  | .ok t =>
    { output with stdout := output.stdout ++ options.render texts t ++ "\n" }
  | .error e =>
    { output with
      code := 1
      stderr := output.stderr ++ texts.report e pattern ++ "\n" }

def run (options : Options) (texts : Texts) : Output :=
  options.patterns.foldl (options.addPattern texts) ⟨0, "", ""⟩

end Options

end PatternSyntax.CommandLine
