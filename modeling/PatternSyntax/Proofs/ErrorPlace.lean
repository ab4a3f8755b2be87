import PatternSyntax.Proofs.ScannerRuns

/-!
# Where an error points

An error names a place twice, by its position in characters and by its span in
bytes. Both are taken from the input at which the recogniser stops, and an input
keeps its two counts in step with the text that has been read. So all that is
left to say is which characters stand at that place, cause by cause.

The character at the place is the one that the recogniser did not go on with.
What stands in front of it is known from the mode, since the modes in which a
bracket or a range has only begun are entered by one character each. That is the
invariant. A step either keeps it or stops with a cause that agrees with it. The
cause about a descending range has its lower bound in the mode, and the mode was
entered by the dash behind it.

A span begins where a character begins and ends where one ends, whatever their
sizes.
-/

namespace PatternSyntax

/-! ## The characters that belong to a cause -/

namespace Cause

/-- The cause agrees with its place: with the text `read` in front of it, the
character `next` at it, if there is one, and the number of groups that may be
open. -/
def FitsAt (limit : UInt32) (read : List Char) (next : Option Char) :
    Cause → Prop
  | unexpected found => found = next
  | unclosed _ found => found = next
  | emptyBracket => ['['] <:+ read ∨ ['[', '^'] <:+ read
  | descendingRange lo hi => hi < lo ∧ [lo, '-'] <:+ read ∧ next = some hi
  | tooDeep n => n = limit ∧ next = some '('

/-- The text that is underlined: a descending range, or the next character
alone. -/
def marked (next : Option Char) : Cause → List Char
  | descendingRange lo hi => [lo, '-', hi]
  | _ => next.toList

/-- The number of characters before the text that is underlined. -/
def charsBefore (position : Nat) : Cause → Nat
  | descendingRange _ _ => position - 3
  | _ => position - 1

end Cause

namespace Scanner

variable {limit : UInt32} {mode mode' : Mode} {groups groups' : Nat} {c : Char}
  {read u v : List Char} {cause : Cause}

/-! ## What a mode says about the text before it -/

/-- How the text ends that has been read in this mode. -/
def Mode.Recalls (read : List Char) : Mode → Prop
  | .opened => ['['] <:+ read
  | .negated => ['[', '^'] <:+ read
  | .single lo => [lo] <:+ read
  | .dash lo => [lo, '-'] <:+ read
  | _ => True

/-- A step on `c` behind `read`: the new mode knows how the text ends that `c`
belongs to, and a cause is one that agrees with the place of `c`. -/
def Step.FitsAt (limit : UInt32) (read : List Char) (c : Char) : Step → Prop
  | .go mode _ => mode.Recalls (read ++ [c])
  | .stop cause => cause.FitsAt limit read (some c)

theorem beginTerm_fits : (beginTerm limit groups c).FitsAt limit read c := by
  rw [beginTerm]
  split
  · trivial
  · split
    · next hopen =>
        subst hopen
        exact List.suffix_append read ['[']
    · split
      · next hgroup =>
          split
          · trivial
          · exact ⟨rfl, congrArg some hgroup⟩
      · rfl

theorem afterTerm_fits : (afterTerm limit groups c).FitsAt limit read c := by
  rw [afterTerm]
  split
  · trivial
  · split
    · trivial
    · exact beginTerm_fits

theorem step_fits (hmode : mode.Recalls read) :
    (step limit mode groups c).FitsAt limit read c := by
  have hsingle : (Step.go (.single c) groups).FitsAt limit read c :=
    List.suffix_append read [c]
  cases mode with
  | term => exact beginTerm_fits
  | ended =>
      rw [step]
      split
      · trivial
      · exact afterTerm_fits
  | starred => exact afterTerm_fits
  | opened =>
      rw [step]
      split
      · next hcaret =>
          subst hcaret
          show ['['] ++ ['^'] <:+ read ++ ['^']
          exact List.suffix_append_self_iff.mpr hmode
      · split
        · exact hsingle
        · exact Or.inl hmode
  | negated =>
      rw [step]
      split
      · exact hsingle
      · exact Or.inr hmode
  | single lo =>
      rw [step]
      split
      · next hdash =>
          subst hdash
          show [lo] ++ ['-'] <:+ read ++ ['-']
          exact List.suffix_append_self_iff.mpr hmode
      · split
        · exact hsingle
        · split
          · trivial
          · rfl
  | dash lo =>
      rw [step]
      split
      · split
        · trivial
        · next hle => exact ⟨Char.not_le.mp hle, hmode, rfl⟩
      · rfl
  | range =>
      rw [step]
      split
      · exact hsingle
      · split
        · trivial
        · rfl

theorem run_recalls (hmode : mode.Recalls read)
    (h : run limit mode groups u = some (mode', groups')) :
    mode'.Recalls (read ++ u) := by
  induction u generalizing mode groups read with
  | nil =>
      cases h
      rw [List.append_nil]
      exact hmode
  | cons c u ih =>
      obtain ⟨mode₁, groups₁, hs, hu⟩ := run_cons_eq_some h
      have hmode₁ : (step limit mode groups c).FitsAt limit read c :=
        step_fits hmode
      rw [hs] at hmode₁
      have hrest : mode'.Recalls (read ++ [c] ++ u) := ih hmode₁ hu
      rw [List.append_assoc] at hrest
      exact hrest

/-! ## Why the recogniser stops -/

theorem atEnd_fits (hmode : mode.Recalls read)
    (h : atEnd mode groups = some cause) :
    cause.FitsAt limit read none := by
  have hclose : (if groups = 0 then none else some (Cause.unclosed ')' none)) =
      some cause →
      cause.FitsAt limit read none := by
    intro h
    split at h
    · cases h
    · cases h
      rfl
  cases mode with
  | ended => exact hclose h
  | starred => exact hclose h
  | opened =>
      cases h
      exact Or.inl hmode
  | negated =>
      cases h
      exact Or.inr hmode
  | _ =>
      cases h
      rfl

theorem halt_fits (hmode : mode.Recalls read)
    (h : halt limit mode groups v = some cause) :
    cause.FitsAt limit read v.head? := by
  cases v with
  | nil => exact atEnd_fits hmode h
  | cons c v =>
      rw [halt] at h
      split at h
      · cases h
      · next cause' hs =>
          have hcause : (step limit mode groups c).FitsAt limit read c :=
            step_fits hmode
          cases h
          rw [hs] at hcause
          exact hcause

/-! ## Characters and bytes -/

theorem utf8ByteSize_ofList (s : List Char) :
    (String.ofList s).utf8ByteSize = utf8Length s := by
  induction s with
  | nil => rfl
  | cons c s ih =>
      have hcons : String.ofList (c :: s) =
          String.singleton c ++ String.ofList s := by
        rw [← String.toList_inj]
        simp
      rw [hcons, String.utf8ByteSize_append, String.utf8ByteSize_singleton, ih,
        utf8Length]

theorem utf8Length_append (s rest : List Char) :
    utf8Length (s ++ rest) = utf8Length s + utf8Length rest := by
  induction s with
  | nil => rw [List.nil_append, utf8Length, Nat.zero_add]
  | cons c s ih =>
      rw [List.cons_append, utf8Length, utf8Length, ih, Nat.add_assoc]

/-- Where a text ends that begins a string, there is a character boundary. -/
theorem isValid_of_prefix {s : String} {front : List Char}
    (h : front <+: s.toList) :
    (⟨utf8Length front⟩ : String.Pos.Raw).IsValid s := by
  obtain ⟨rest, hrest⟩ := h
  refine String.Pos.Raw.isValid_iff_exists_append.mpr
    ⟨String.ofList front, String.ofList rest, ?_, ?_⟩
  · rw [← String.ofList_append, hrest, String.ofList_toList]
  · rw [← utf8ByteSize_ofList]
    rfl

/-- The underlined text ends with the next character, and the span is its place
in bytes. -/
theorem errorAt_span (hfits : cause.FitsAt limit read v.head?) :
    ∃ front, front ++ cause.marked v.head? = read ++ v.head?.toList ∧
      front.length = cause.charsBefore (read.length + 1) ∧
      (errorAt ⟨v, read.length, utf8Length read⟩ cause).span =
        ⟨utf8Length front, utf8Length (cause.marked v.head?)⟩ := by
  have hspan : Input.span ⟨v, read.length, utf8Length read⟩ =
      ⟨utf8Length read, utf8Length v.head?.toList⟩ := by
    cases v with
    | nil => rfl
    | cons c v => rfl
  cases cause with
  | descendingRange lo hi =>
      obtain ⟨-, ⟨front, rfl⟩, hnext⟩ := hfits
      refine ⟨front, ?_, ?_, ?_⟩
      · rw [hnext, List.append_assoc]
        rfl
      · rw [List.length_append]
        rfl
      · have hsize : '-'.utf8Size = 1 := rfl
        simp only [errorAt, utf8Length_append, utf8Length, Cause.marked, hsize]
        congr 1
        · omega
        · omega
  | _ => exact ⟨read, rfl, rfl, hspan⟩

/-- An error parts the pattern into the text that was read and the rest, whose
first character it could not go on with. -/
theorem firstError_parts {s : List Char} {e : ParseError}
    (h : firstError limit .term 0 (Input.ofList s) = some e) :
    ∃ read v, s = read ++ v ∧ e.position = read.length + 1 ∧
      e.cause.FitsAt limit read v.head? ∧
      e = errorAt ⟨v, read.length, utf8Length read⟩ e.cause := by
  obtain ⟨read, v, mode, groups, cause, hs, hrun, hhalt, rfl⟩ :=
    firstError_eq_some_iff.mp h
  have hterm : Mode.term.Recalls [] := trivial
  have hrecalls : mode.Recalls ([] ++ read) := run_recalls hterm hrun
  rw [Nat.zero_add, Nat.zero_add, errorAt_cause, errorAt_position]
  exact ⟨read, v, hs, rfl, halt_fits hrecalls hhalt, rfl⟩

end Scanner

namespace Parser

open Scanner

variable {τ σ : Type}

/-- Every error points at the right characters in both units. Its position
counts them, its cause is about the character there and those in front of it,
and its span is the text that belongs to the cause, in whole characters of the
pattern. -/
theorem error_points_at_characters {p : Parser τ σ} {s : String} {made : τ}
    {e : ParseError} (h : (p.parse s made).1 = .error e) :
    let read := s.toList.take (e.position - 1)
    let next := s.toList[e.position - 1]?
    let before := s.toList.take (e.cause.charsBefore e.position)
    1 ≤ e.position ∧ e.position ≤ s.length + 1 ∧
      (next = none ↔ e.position = s.length + 1) ∧
      e.cause.FitsAt p.nestLimit read next ∧
      e.span.offset = (String.ofList before).utf8ByteSize ∧
      e.span.length = (String.ofList (e.cause.marked next)).utf8ByteSize ∧
      e.span.offset + e.span.length ≤ s.utf8ByteSize ∧
      (⟨e.span.offset⟩ : String.Pos.Raw).IsValid s ∧
      (⟨e.span.offset + e.span.length⟩ : String.Pos.Raw).IsValid s := by
  obtain ⟨read, v, hs, hposition, hfits, he⟩ :=
    firstError_parts (parse_error_iff.mp h)
  obtain ⟨front, hmarked, hfront, hspan⟩ := errorAt_span hfits
  rw [← he] at hspan
  have hprefix : front ++ e.cause.marked v.head? <+: s.toList := by
    refine ⟨v.tail, ?_⟩
    rw [hmarked, hs, List.append_assoc]
    cases v with
    | nil => rfl
    | cons c v => rfl
  have hlength : s.length = read.length + v.length := by
    rw [← String.length_toList, hs, List.length_append]
  have hread : s.toList.take (e.position - 1) = read := by
    rw [hposition, Nat.add_sub_cancel, hs, List.take_left]
  have hnext : s.toList[e.position - 1]? = v.head? := by
    rw [hposition, Nat.add_sub_cancel, hs,
      List.getElem?_append_right (Nat.le_refl _), Nat.sub_self,
      List.head?_eq_getElem?]
  have hbefore : s.toList.take (e.cause.charsBefore e.position) = front := by
    obtain ⟨rest, hrest⟩ := (List.prefix_append front _).trans hprefix
    rw [hposition, ← hfront, ← hrest, List.take_left]
  have hend : (⟨e.span.offset + e.span.length⟩ : String.Pos.Raw).IsValid s := by
    have hvalid := isValid_of_prefix hprefix
    rw [utf8Length_append] at hvalid
    rw [hspan]
    exact hvalid
  dsimp only
  rw [hread, hnext, hbefore, utf8ByteSize_ofList, utf8ByteSize_ofList]
  refine ⟨by omega, by omega, ?_, hfits, by rw [hspan], by rw [hspan],
    hend.le_utf8ByteSize, ?_, hend⟩
  · rw [List.head?_eq_none_iff, ← List.length_eq_zero_iff]
    omega
  · rw [hspan]
    exact isValid_of_prefix ((List.prefix_append front _).trans hprefix)

/-- A descending range behind characters of two bytes: its span starts at the
seventh byte, with the seventh character, and is wider than the three
characters. -/
theorem error_points_at_descending_range :
    let p : Parser (Array Atom) Atom := ⟨.recorder, 0⟩
    let e : ParseError := ⟨.descendingRange 'é' 'a', 9, ⟨7, 4⟩⟩
    let before := "[^ß]|[é-".toList
    (p.parse "[^ß]|[é-a]" #[]).1 = .error e ∧
      e.cause.FitsAt 0 before (some 'a') ∧
      (⟨7⟩ : String.Pos.Raw).IsValid "[^ß]|[é-a]" ∧
      (⟨11⟩ : String.Pos.Raw).IsValid "[^ß]|[é-a]" := by
  intro p e before
  have h : (p.parse "[^ß]|[é-a]" #[]).1 = .error e :=
    parse_error_iff.mpr (by decide +kernel)
  obtain ⟨-, -, -, hfits, -, -, -, hstart, hend⟩ := error_points_at_characters h
  have hbefore : "[^ß]|[é-a]".toList.take (e.position - 1) = before := by
    decide +kernel
  have hnext : "[^ß]|[é-a]".toList[e.position - 1]? = some 'a' := by
    decide +kernel
  rw [hbefore, hnext] at hfits
  exact ⟨h, hfits, hstart, hend⟩

end Parser

end PatternSyntax
