import PatternSyntax.Input

/-!
# Where a parse stands

A parse is described by what it has left to read and by the number of groups
it is inside. That number is a machine word, like the limit it is compared
with; it is only ever raised when it lies below the limit, and lowered once for
each time it was raised.

A production that succeeds has read something. Its result carries that fact,
and all recursion between the productions ends because of it.
-/

namespace PatternSyntax

structure State where
  input : Input
  openGroups : UInt32
  deriving DecidableEq

namespace State

def ofList (pattern : List Char) : State :=
  ⟨Input.ofList pattern, 0⟩

def unread (st : State) : Nat :=
  st.input.rest.length

def peek (st : State) : Option Char :=
  st.input.peek

def advance (st : State) : State :=
  { st with input := st.input.advance }

/-- Reads the character that opens a group. -/
def enter (st : State) : State :=
  ⟨st.input.advance, st.openGroups + 1⟩

def leave (st : State) : State :=
  { st with openGroups := st.openGroups - 1 }

@[simp] theorem advance_input (st : State) :
    st.advance.input = st.input.advance := rfl

@[simp] theorem enter_input (st : State) :
    st.enter.input = st.input.advance := rfl

@[simp] theorem leave_input (st : State) : st.leave.input = st.input := rfl

theorem advance_lt {st : State} {c : Char} (h : st.peek = some c) :
    st.advance.unread < st.unread :=
  Input.advance_lt h

theorem enter_lt {st : State} {c : Char} (h : st.peek = some c) :
    st.enter.unread < st.unread :=
  Input.advance_lt h

theorem advance_le (st : State) : st.advance.unread ≤ st.unread :=
  st.input.advance_le

end State

/-- What a production that began at `start` hands back. -/
structure Read (start : State) (α : Type) where
  value : α
  next : State
  progress : next.unread < start.unread

/-- A result or an error, and in either case what became of the state of the
symbol factory. -/
abbrev Outcome (τ α : Type) : Type :=
  Except ParseError α × τ

end PatternSyntax
