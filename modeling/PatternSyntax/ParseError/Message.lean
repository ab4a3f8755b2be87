import PatternSyntax.ParseError.Basic
import PatternSyntax.Text.Quoted

/-!
# Wording of rejections

Every cause has a name, a code for tools, a message for people, a label for the
part of the pattern that it points at, and sometimes an advice. A message shows
the characters as they are, between single quotes. The outline of a rejection
shows all its fields, and its characters are quoted.
-/

namespace PatternSyntax

def describeFound (found : Option Char) : String :=
  match found with
  | some c => "'" ++ String.singleton c ++ "'"
  | none => "end of input"

namespace Cause

def name : Cause → String
  | unexpected _ => "UnexpectedSymbol"
  | unclosed _ _ => "Unclosed"
  | emptyBracket => "EmptyClass"
  | descendingRange _ _ => "InvalidRange"
  | tooDeep _ => "NestTooDeep"

/-- The code by which a tool recognises the kind of cause. -/
def code : Cause → String
  | unexpected _ => "redeggs::parse::unexpected_symbol"
  | unclosed _ _ => "redeggs::parse::unclosed"
  | emptyBracket => "redeggs::parse::empty_class"
  | descendingRange _ _ => "redeggs::parse::invalid_range"
  | tooDeep _ => "redeggs::parse::nest_too_deep"

def summary : Cause → String
  | unexpected found => "unexpected symbol " ++ describeFound found
  | unclosed expected found =>
    "expected closing '" ++ String.singleton expected ++ "' but found "
      ++ describeFound found
  | emptyBracket => "empty character class"
  | descendingRange lo hi =>
    "invalid range '" ++ String.singleton lo ++ "-"
      ++ String.singleton hi ++ "'"
  | tooDeep limit =>
    "group nesting exceeds the limit of " ++ toString limit.toNat

/-- What stands at the place that the cause points at. -/
def label : Cause → String
  | unexpected _ => "unexpected here"
  | unclosed _ _ => "missing closing delimiter"
  | emptyBracket => "class body ends here"
  | descendingRange _ _ => "descending range"
  | tooDeep _ => "too deeply nested"

/-- How to mend the pattern, where the message does not say it already. -/
def help? : Cause → Option String
  | emptyBracket =>
    some "a bracket expression needs at least one character or range"
  | descendingRange _ _ =>
    some "the lower bound of a range must not exceed the upper bound"
  | _ => none

def outlineFound (shown : Char → Bool) (found : Option Char) : String :=
  match found with
  | some c => "Char(" ++ quoteChar shown c ++ ")"
  | none => "End"

/-- The fields of the cause, each with its name and a comma behind it. -/
def outlineFields (shown : Char → Bool) : Cause → String
  | unexpected found => "found: " ++ outlineFound shown found ++ ", "
  | unclosed expected found =>
    "expected: " ++ quoteChar shown expected ++ ", found: "
      ++ outlineFound shown found ++ ", "
  | emptyBracket => ""
  | descendingRange lo hi =>
    "lo: " ++ quoteChar shown lo ++ ", hi: " ++ quoteChar shown hi ++ ", "
  | tooDeep limit => "limit: " ++ toString limit.toNat ++ ", "

end Cause

def Span.outline (s : Span) : String :=
  "SourceSpan \x7b offset: SourceOffset(" ++ toString s.offset ++ "), length: "
    ++ toString s.length ++ " \x7d"

namespace ParseError

def message (e : ParseError) : String :=
  e.cause.summary ++ " at position " ++ toString e.position

def outline (shown : Char → Bool) (e : ParseError) : String :=
  e.cause.name ++ " \x7b " ++ e.cause.outlineFields shown ++ "position: "
    ++ toString e.position ++ ", span: " ++ e.span.outline ++ " \x7d"

end ParseError

end PatternSyntax
