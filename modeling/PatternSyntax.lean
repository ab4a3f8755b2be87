import PatternSyntax.Alphabet
import PatternSyntax.Atom
import PatternSyntax.Bracket.Basic
import PatternSyntax.Bracket.Reader
import PatternSyntax.Bracket.Spelling
import PatternSyntax.CharClass.Basic
import PatternSyntax.CharClass.Printer
import PatternSyntax.CommandLine
import PatternSyntax.Grammar
import PatternSyntax.Input
import PatternSyntax.ParseError.Basic
import PatternSyntax.ParseError.Message
import PatternSyntax.Parser.Checked
import PatternSyntax.Parser.Pattern
import PatternSyntax.Parser.Productions
import PatternSyntax.Parser.State
import PatternSyntax.Scanner
import PatternSyntax.Text.Quoted
import PatternSyntax.Tree.Basic
import PatternSyntax.Tree.Equality
import PatternSyntax.Tree.Layout
import PatternSyntax.Tree.Measure
import PatternSyntax.Tree.Outline
import PatternSyntax.Tree.Printer
import PatternSyntax.Proofs.BracketReading
import PatternSyntax.Proofs.ItemSpelling
import PatternSyntax.Proofs.TreeMaking
import PatternSyntax.Proofs.Soundness
import PatternSyntax.Proofs.Completeness
import PatternSyntax.Proofs.Exactness
import PatternSyntax.Proofs.FirstError
import PatternSyntax.Proofs.Simulation
import PatternSyntax.Proofs.Recognition
import PatternSyntax.Proofs.CanonicalForm
import PatternSyntax.Proofs.ClassText
import PatternSyntax.Proofs.CorrectPrefix
import PatternSyntax.Proofs.RoundTrip
import PatternSyntax.Proofs.GroupNesting
import PatternSyntax.Proofs.FewestGroups
import PatternSyntax.Proofs.NestLimit
import PatternSyntax.Proofs.SourceOrder
import PatternSyntax.Proofs.BracketPosition
import PatternSyntax.Proofs.SymbolRequests
import PatternSyntax.Proofs.SpelledBrackets
import PatternSyntax.Proofs.LeafSpelling
import PatternSyntax.Proofs.Substitution
import PatternSyntax.Proofs.Naturality
import PatternSyntax.Proofs.CommandRuns
import PatternSyntax.Proofs.ErrorPlace
import PatternSyntax.Proofs.NodeCounts
import PatternSyntax.Proofs.UniqueReading
import PatternSyntax.Proofs.OutlineReading
import PatternSyntax.Proofs.PendingWork
import PatternSyntax.Proofs.Progress
import PatternSyntax.Proofs.CheckedRuns
