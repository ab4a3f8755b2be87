import PatternSyntax.Input
import PatternSyntax.Scanner

/-!
# The recogniser with its errors in full

The flat recogniser gives a cause and a position. Run on an input, which also
counts bytes, it can give the whole error, with the span that a report
underlines. Nothing is kept for that: a span covers the next character, and
where it covers more, in a descending range, the mode has the lower bound in it
and the input stands right behind its dash.

`firstError` is the form in which the recogniser is compared with the parser.
The equations of one step are all that is used about it.
-/

namespace PatternSyntax.Scanner

/-- The error for a cause that arises at the next character. -/
def errorAt (i : Input) (cause : Cause) : ParseError :=
  match cause with
  | .descendingRange lo hi =>
    ⟨cause, i.position,
      ⟨i.offset - lo.utf8Size - 1, lo.utf8Size + 1 + hi.utf8Size⟩⟩
  | _ => i.reject cause

theorem errorAt_cause (i : Input) (cause : Cause) :
    (errorAt i cause).cause = cause := by
  cases cause <;> rfl

theorem errorAt_position (i : Input) (cause : Cause) :
    (errorAt i cause).position = i.position := by
  cases cause <;> rfl

/-- The first error in the rest of a pattern, read in a mode and inside so many
groups. -/
def firstError (limit : UInt32) (mode : Mode) (groups : Nat) (i : Input) :
    Option ParseError :=
  match hp : i.peek with
  | none => (atEnd mode groups).map (errorAt i)
  | some c =>
    match step limit mode groups c with
    | .go mode groups =>
      have := Input.advance_lt hp
      firstError limit mode groups i.advance
    | .stop cause => some (errorAt i cause)
termination_by i.rest.length

variable {limit : UInt32} {mode mode' : Mode} {groups groups' : Nat} {i : Input}
  {c : Char}

theorem firstError_end (hp : i.peek = none) :
    firstError limit mode groups i = (atEnd mode groups).map (errorAt i) := by
  rw [firstError]
  split
  · rfl
  · next hp' => cases hp.symm.trans hp'

theorem firstError_go (hp : i.peek = some c)
    (hs : step limit mode groups c = .go mode' groups') :
    firstError limit mode groups i =
      firstError limit mode' groups' i.advance := by
  rw [firstError]
  split
  · next hp' => cases hp.symm.trans hp'
  · next hp' =>
      cases hp.symm.trans hp'
      rw [hs]

theorem firstError_stop {cause : Cause} (hp : i.peek = some c)
    (hs : step limit mode groups c = .stop cause) :
    firstError limit mode groups i = some (errorAt i cause) := by
  rw [firstError]
  split
  · next hp' => cases hp.symm.trans hp'
  · next hp' =>
      cases hp.symm.trans hp'
      rw [hs]

/-- Two modes that treat the next character alike give the same error. -/
theorem firstError_congr
    (hend : i.peek = none → atEnd mode groups = atEnd mode' groups)
    (hstep : ∀ c, i.peek = some c →
      step limit mode groups c = step limit mode' groups c) :
    firstError limit mode groups i = firstError limit mode' groups i := by
  cases hp : i.peek with
  | none => rw [firstError_end hp, firstError_end hp, hend hp]
  | some c =>
      have hs := hstep c hp
      cases hgo : step limit mode' groups c with
      | go mode₁ groups₁ =>
          rw [firstError_go hp hgo, firstError_go hp (hs.trans hgo)]
      | stop cause =>
          rw [firstError_stop hp hgo, firstError_stop hp (hs.trans hgo)]

/-- Without the spans this is the recogniser. -/
theorem scan_eq_firstError (limit : UInt32) (mode : Mode) (groups : Nat)
    (i : Input) :
    scan limit mode groups i.position i.rest =
      (firstError limit mode groups i).map fun e => (e.cause, e.position) := by
  cases hp : i.peek with
  | none =>
      rw [firstError_end hp, Input.rest_of_peek_none hp, scan]
      cases atEnd mode groups with
      | none => rfl
      | some cause => simp [errorAt_cause, errorAt_position]
  | some c =>
      have read := Input.advance_lt hp
      have hposition : i.position + 1 = i.advance.position := by
        rw [Input.position, Input.position, Input.advance,
          Input.rest_of_peek hp]
      rw [Input.rest_of_peek hp, scan]
      split
      · next mode' groups' hs =>
          rw [firstError_go hp hs, hposition]
          exact scan_eq_firstError limit mode' groups' i.advance
      · next cause hs =>
          rw [firstError_stop hp hs]
          simp [errorAt_cause, errorAt_position]
termination_by i.rest.length

/-! ## Modes that come to the same

Before a character that is not the one they differ on, two modes are one. -/

theorem firstError_opened (hp : i.peek ≠ some '^') :
    firstError limit .opened groups i = firstError limit .negated groups i := by
  refine firstError_congr (fun _ => rfl) fun c hc => ?_
  have hne : c ≠ '^' := fun h => hp (h ▸ hc)
  rw [step, step, if_neg hne]

theorem firstError_single {lo : Char} (hp : i.peek ≠ some '-') :
    firstError limit (.single lo) groups i =
      firstError limit .range groups i := by
  refine firstError_congr (fun _ => rfl) fun c hc => ?_
  have hne : c ≠ '-' := fun h => hp (h ▸ hc)
  rw [step, step, if_neg hne]

theorem firstError_ended (hp : i.peek ≠ some '*') :
    firstError limit .ended groups i = firstError limit .starred groups i := by
  refine firstError_congr (fun _ => rfl) fun c hc => ?_
  have hne : c ≠ '*' := fun h => hp (h ▸ hc)
  rw [step, step, if_neg hne]

theorem firstError_starred (hp : i.peek = some c) (hc : startsTerm c = true) :
    firstError limit .starred groups i = firstError limit .term groups i := by
  refine firstError_congr (fun hnone => ?_) fun d hd => ?_
  · cases hp.symm.trans hnone
  · cases hp.symm.trans hd
    obtain ⟨hbar, -, -, hclose, -⟩ := startsTerm_iff.mp hc
    rw [step, step, afterTerm, if_neg hbar, if_neg (fun h => hclose h.1)]

/-- A character that begins no term is rejected where one has to begin. -/
theorem beginTerm_stop (hc : startsTerm c = false) :
    beginTerm limit groups c = .stop (.unexpected (some c)) := by
  simp only [startsTerm, Bool.or_eq_false_iff, beq_eq_false_iff_ne] at hc
  obtain ⟨⟨hlit, hgroup⟩, hbracket⟩ := hc
  rw [beginTerm, if_neg (by rw [hlit]; exact Bool.false_ne_true),
    if_neg hbracket, if_neg hgroup]

end PatternSyntax.Scanner
