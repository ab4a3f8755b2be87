import PatternSyntax.Atom
import PatternSyntax.Bracket.Reader
import PatternSyntax.Parser.State
import PatternSyntax.Tree.Basic

/-!
# The productions of the grammar

    regex  = branch ( '|' branch )*
    branch = factor+
    factor = base '*'?
    base   = literal | '(' regex ')' | '[' bracket ']'

Each production is a function of its own, and decides by the next character
alone. The two repetitions are loops that collect their operands, latest first;
at the end the operands are joined to the right, so that the last one is
innermost.

The state of the symbol factory is passed along as `made`, also out of a
production that fails: the symbols asked for until then have been made.

A group passes through the whole chain again, one character further on. The
other productions call the next lower one at the same place. Hence the measure:
first the number of unread characters, then the rank of the production.
-/

namespace PatternSyntax

/-- What a parse depends on besides the pattern: who makes the symbols, and how
many groups may be open at once. -/
structure Parser (τ σ : Type) where
  factory : SymbolFactory τ σ
  nestLimit : UInt32

namespace Parser

variable {τ σ : Type}

/-- Joins operands to the right. Those before the last are given latest
first. -/
def joinRight (join : Tree σ → Tree σ → Tree σ) (earlier : List (Tree σ))
    (last : Tree σ) : Tree σ :=
  earlier.foldl (fun joined operand => join operand joined) last

def literal (p : Parser τ σ) (st : State) (c : Char) (h : st.peek = some c)
    (made : τ) : Outcome τ (Read st (Tree σ)) :=
  match p.factory.make (.char c) made with
  | (symbol, made) => (.ok ⟨.literal symbol, st.advance, st.advance_lt h⟩, made)

/-- Reads a bracket expression. Its symbol is asked for as soon as its body has
been read, before it is known to be closed. -/
def bracket (p : Parser τ σ) (st : State) (h : st.peek = some '[') (made : τ) :
    Outcome τ (Read st (Tree σ)) :=
  match Bracket.readBody st.input.advance with
  | .ok (b, body) =>
    match p.factory.make (.bracket b) made with
    | (symbol, made) =>
      if body.input.peek = some ']' then
        (.ok ⟨.literal symbol, ⟨body.input.advance, st.openGroups⟩,
          Nat.lt_of_le_of_lt (Nat.le_trans body.input.advance_le body.le)
            (Input.advance_lt h)⟩, made)
      else (.error (body.input.unclosed ']'), made)
  | .error e => (.error e, made)

/-- Ends a group whose content has been read. -/
def closeGroup {start : State} (content : Read start (Tree σ)) :
    Except ParseError (Read start (Tree σ)) :=
  if content.next.leave.peek = some ')' then
    .ok ⟨content.value, content.next.leave.advance,
      Nat.lt_of_le_of_lt content.next.leave.advance_le content.progress⟩
  else .error (content.next.leave.input.unclosed ')')

mutual

/-- One branch or several, with bars between them. -/
def regex (p : Parser τ σ) (st : State) (made : τ) :
    Outcome τ (Read st (Tree σ)) :=
  if st.peek.any startsTerm then
    match p.branch st made with
    | (.ok first, made) =>
      have := first.progress
      p.branches st first.next first.progress [] first.value made
    | (.error e, made) => (.error e, made)
  else (.error st.input.unexpected, made)
termination_by (st.unread, 3)

/-- The further branches of the regex that began at `start`. -/
def branches (p : Parser τ σ) (start st : State)
    (progress : st.unread < start.unread) (earlier : List (Tree σ))
    (last : Tree σ) (made : τ) : Outcome τ (Read start (Tree σ)) :=
  match hp : st.peek with
  | none => (.ok ⟨joinRight .alt earlier last, st, progress⟩, made)
  | some c =>
    if c = '|' then
      have bar := st.advance_lt hp
      match p.branch st.advance made with
      | (.ok b, made) =>
        have branch := b.progress
        p.branches start b.next (by omega) (last :: earlier) b.value made
      | (.error e, made) => (.error e, made)
    else if c = ')' then (.ok ⟨joinRight .alt earlier last, st, progress⟩, made)
    else (.error st.input.unexpected, made)
termination_by (st.unread, 0)

/-- One factor or several. -/
def branch (p : Parser τ σ) (st : State) (made : τ) :
    Outcome τ (Read st (Tree σ)) :=
  if st.peek.any startsTerm then
    match p.factor st made with
    | (.ok first, made) =>
      have := first.progress
      p.factors st first.next first.progress [] first.value made
    | (.error e, made) => (.error e, made)
  else (.error st.input.unexpected, made)
termination_by (st.unread, 2)

/-- The further factors of the branch that began at `start`. -/
def factors (p : Parser τ σ) (start st : State)
    (progress : st.unread < start.unread) (earlier : List (Tree σ))
    (last : Tree σ) (made : τ) : Outcome τ (Read start (Tree σ)) :=
  match st.peek with
  | none => (.ok ⟨joinRight .concat earlier last, st, progress⟩, made)
  | some c =>
    if startsTerm c then
      match p.factor st made with
      | (.ok f, made) =>
        have factor := f.progress
        p.factors start f.next (by omega) (last :: earlier) f.value made
      | (.error e, made) => (.error e, made)
    else if c = ')' ∨ c = '|' then
      (.ok ⟨joinRight .concat earlier last, st, progress⟩, made)
    else (.error st.input.unexpected, made)
termination_by (st.unread, 2)

/-- A base, repeated or not. What follows must be able to follow a factor. -/
def factor (p : Parser τ σ) (st : State) (made : τ) :
    Outcome τ (Read st (Tree σ)) :=
  match p.base st made with
  | (.ok b, made) =>
    match hp : b.next.peek with
    | none => (.ok b, made)
    | some c =>
      if c = '*' then
        (.ok ⟨.star b.value, b.next.advance,
          Nat.lt_trans (State.advance_lt hp) b.progress⟩, made)
      else if startsTerm c ∨ c = ')' ∨ c = '|' then (.ok b, made)
      else (.error b.next.input.unexpected, made)
  | (.error e, made) => (.error e, made)
termination_by (st.unread, 1)

def base (p : Parser τ σ) (st : State) (made : τ) :
    Outcome τ (Read st (Tree σ)) :=
  match hp : st.peek with
  | none => (.error st.input.unexpected, made)
  | some c =>
    if c = '(' then
      if st.openGroups < p.nestLimit then
        have enter := st.enter_lt hp
        match p.regex st.enter made with
        | (.ok content, made) =>
          match closeGroup content with
          | .ok group =>
            (.ok ⟨group.value, group.next, Nat.lt_trans group.progress enter⟩,
              made)
          | .error e => (.error e, made)
        | (.error e, made) => (.error e, made)
      else (.error (st.input.reject (.tooDeep p.nestLimit)), made)
    else if hb : c = '[' then p.bracket st (hb ▸ hp) made
    else if isLiteral c then p.literal st c hp made
    else (.error st.input.unexpected, made)
termination_by (st.unread, 0)

end

end Parser

end PatternSyntax
