import Mathlib.Data.Option.Basic
import PatternSyntax.Parser.Pattern

/-!
# The parser with its assumptions checked

The parser counts open groups in a machine word. It raises the word without
asking whether there is a larger one and lowers it without asking whether there
is a smaller one, and two of its arms are written for characters that should
never get there. The productions here are the same ones, with each of these
assumptions checked where the parser relies on it. A run in which a check fails
has no outcome, neither a tree nor an error.

The number of open groups is compared with the limit in every state in which a
production begins, and in every state in which one goes on behind another. It
changes at the two parentheses of a group and nowhere else, and there the
arithmetic is checked as well.
-/

namespace PatternSyntax.Parser

variable {τ σ : Type}

/-- Ends a group whose content has been read. There must be one to leave, and
nothing but the end of the pattern may stand in the place of its closing
parenthesis. -/
def checkedCloseGroup (limit : UInt32) {start : State}
    (content : Read start (Tree σ)) :
    Option (Except ParseError (Read start (Tree σ))) := do
  guard (content.next.openGroups ≤ limit)
  guard (0 < content.next.openGroups.toNat)
  guard (content.next.leave.openGroups ≤ limit)
  guard (content.next.peek.all (· == ')'))
  return closeGroup content

/-- Ends a factor whose base has been read. -/
def endFactor {start : State} (b : Read start (Tree σ)) (made : τ) :
    Outcome τ (Read start (Tree σ)) :=
  match b.next.peek with
  | none => (.ok b, made)
  | some c =>
    if c = '*' then
      (.ok ⟨.star b.value, b.next.advance,
        Nat.lt_of_le_of_lt b.next.advance_le b.progress⟩, made)
    else if startsTerm c ∨ c = ')' ∨ c = '|' then (.ok b, made)
    else (.error b.next.input.unexpected, made)

mutual

def checkedRegex (p : Parser τ σ) (st : State) (made : τ) :
    Option (Outcome τ (Read st (Tree σ))) := do
  guard (st.openGroups ≤ p.nestLimit)
  if st.peek.any startsTerm then
    match ← p.checkedBranch st made with
    | (.ok first, made) =>
      have := first.progress
      p.checkedBranches st first.next first.progress [] first.value made
    | (.error e, made) => return (.error e, made)
  else return (.error st.input.unexpected, made)
termination_by (st.unread, 3)

/-- The loop over branches, which must not stand in front of any character but
its own two. -/
def checkedBranches (p : Parser τ σ) (start st : State)
    (progress : st.unread < start.unread) (earlier : List (Tree σ))
    (last : Tree σ) (made : τ) :
    Option (Outcome τ (Read start (Tree σ))) := do
  guard (st.openGroups ≤ p.nestLimit)
  match hp : st.peek with
  | none => return (.ok ⟨joinRight .alt earlier last, st, progress⟩, made)
  | some c =>
    if c = '|' then
      have bar := st.advance_lt hp
      match ← p.checkedBranch st.advance made with
      | (.ok b, made) =>
        have branch := b.progress
        p.checkedBranches start b.next
          (Nat.lt_trans branch (Nat.lt_trans bar progress))
          (last :: earlier) b.value made
      | (.error e, made) => return (.error e, made)
    else if c = ')' then
      return (.ok ⟨joinRight .alt earlier last, st, progress⟩, made)
    else
      -- Here the parser rejects the character as unexpected.
      none
termination_by (st.unread, 0)

def checkedBranch (p : Parser τ σ) (st : State) (made : τ) :
    Option (Outcome τ (Read st (Tree σ))) := do
  guard (st.openGroups ≤ p.nestLimit)
  if st.peek.any startsTerm then
    match ← p.checkedFactor st made with
    | (.ok first, made) =>
      have := first.progress
      p.checkedFactors st first.next first.progress [] first.value made
    | (.error e, made) => return (.error e, made)
  else return (.error st.input.unexpected, made)
termination_by (st.unread, 2)

def checkedFactors (p : Parser τ σ) (start st : State)
    (progress : st.unread < start.unread) (earlier : List (Tree σ))
    (last : Tree σ) (made : τ) :
    Option (Outcome τ (Read start (Tree σ))) := do
  guard (st.openGroups ≤ p.nestLimit)
  match st.peek with
  | none => return (.ok ⟨joinRight .concat earlier last, st, progress⟩, made)
  | some c =>
    if startsTerm c then
      match ← p.checkedFactor st made with
      | (.ok f, made) =>
        have factor := f.progress
        p.checkedFactors start f.next (Nat.lt_trans factor progress)
          (last :: earlier) f.value made
      | (.error e, made) => return (.error e, made)
    else if c = ')' ∨ c = '|' then
      return (.ok ⟨joinRight .concat earlier last, st, progress⟩, made)
    else return (.error st.input.unexpected, made)
termination_by (st.unread, 2)

def checkedFactor (p : Parser τ σ) (st : State) (made : τ) :
    Option (Outcome τ (Read st (Tree σ))) := do
  guard (st.openGroups ≤ p.nestLimit)
  match ← p.checkedBase st made with
  | (.ok b, made) =>
    guard (b.next.openGroups ≤ p.nestLimit)
    return endFactor b made
  | (.error e, made) => return (.error e, made)
termination_by (st.unread, 1)

def checkedBase (p : Parser τ σ) (st : State) (made : τ) :
    Option (Outcome τ (Read st (Tree σ))) := do
  guard (st.openGroups ≤ p.nestLimit)
  match hp : st.peek with
  | none => return (.error st.input.unexpected, made)
  | some c =>
    if c = '(' then
      if st.openGroups < p.nestLimit then
        -- The word that `enter` raises is not the largest one.
        guard (st.openGroups.toNat + 1 < UInt32.size)
        have enter := st.enter_lt hp
        match ← p.checkedRegex st.enter made with
        | (.ok content, made) =>
          match ← checkedCloseGroup p.nestLimit content with
          | .ok group =>
            return (.ok ⟨group.value, group.next,
              Nat.lt_trans group.progress enter⟩, made)
          | .error e => return (.error e, made)
        | (.error e, made) => return (.error e, made)
      else return (.error (st.input.reject (.tooDeep p.nestLimit)), made)
    else if hb : c = '[' then return p.bracket st (hb ▸ hp) made
    else if isLiteral c then return p.literal st c hp made
    else return (.error st.input.unexpected, made)
termination_by (st.unread, 0)

end

/-- Reads a whole pattern with all checks. -/
def checkedParseList (p : Parser τ σ) (pattern : List Char) (made : τ) :
    Option (Outcome τ (Tree σ)) :=
  if pattern = [emptyWordMark] then some (.ok .emptyWord, made)
  else if pattern = [emptySetMark] then some (.ok .emptySet, made)
  else do
    match ← p.checkedRegex (State.ofList pattern) made with
    | (.ok whole, made) =>
      match whole.next.peek with
      | none => return (.ok whole.value, made)
      | some _ => return (.error whole.next.input.unexpected, made)
    | (.error e, made) => return (.error e, made)

end PatternSyntax.Parser
