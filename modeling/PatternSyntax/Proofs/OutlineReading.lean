import PatternSyntax.CharClass.Printer
import PatternSyntax.Proofs.RoundTrip
import PatternSyntax.Proofs.UniqueReading
import PatternSyntax.Tree.Outline

/-!
# The outline determines the tree

An outline is meant for comparing trees by eye, so different trees must not have
the same one. That is not clear from the brackets and commas alone, since the
bounds of a class can be brackets and commas themselves. Only the quotes around
a bound tell which is which.

Each part of an outline is read as itself whatever comes behind it: a quoted
bound, a range, a class, a tree. For trees this is an induction over the one
tree with the other one left open, as the text of the left operand ends where
the text itself says so. The names of the nodes begin differently enough for the
two roots to be of one kind.
-/

namespace PatternSyntax

/-! ## Classes -/

section Classes

variable {quote : Char → String}

theorem CharRange.readsAs_outline (hquote : QuotesChars quote) (r : CharRange) :
    ReadsAs (CharRange.outline quote) r := by
  intro s rest rest' h
  have hpair (r : CharRange) (rest : List Char) :
      (r.outline quote).toList ++ rest =
      '(' :: ((quote r.lo ++ ", " ++ quote r.hi).toList ++ ')' :: rest) := by
    simp [CharRange.outline]
  rw [hpair, hpair] at h
  obtain ⟨hlo, hhi⟩ :=
    (hquote.readsAs r.lo).pair (hquote.readsAs r.hi) (List.cons.inj h).2
  obtain ⟨lo, hi⟩ := r
  obtain ⟨lo', hi'⟩ := s
  cases hlo
  cases hhi
  rfl

namespace CharClass

/-- The text of the ranges in an outline. -/
def rangesText (quote : Char → String) (s : CharClass) : List Char :=
  (String.intercalate ", " (s.ranges.map (CharRange.outline quote))).toList

theorem outlineWith_toList (quote : Char → String) (s : CharClass)
    (rest : List Char) :
    (s.outlineWith quote).toList ++ rest =
      "CharClass \x7b negated: ".toList ++
        ((if s.negated then "true" else "false").toList ++
        (", ranges: [".toList ++
          (s.rangesText quote ++ ']' :: ' ' :: '\x7d' :: rest))) := by
  have hclose : "] \x7d".toList = [']', ' ', '\x7d'] := rfl
  -- Unfolding by the equation lemma makes Lean evaluate the long name.
  delta outlineWith
  simp only [rangesText, String.toList_append, List.append_assoc, hclose,
    List.cons_append, List.nil_append]

theorem readsAs_outlineWith (hquote : QuotesChars quote) (s : CharClass) :
    ReadsAs (outlineWith quote) s := by
  intro t rest rest' h
  rw [outlineWith_toList, outlineWith_toList] at h
  have hbehind := List.append_cancel_left h
  obtain ⟨negated, ranges⟩ := s
  obtain ⟨negated', ranges'⟩ := t
  have hopen (r : CharRange) : (r.outline quote).toList.head? = some '(' := by
    simp [CharRange.outline]
  have hranges : negated = negated' → ranges = ranges' := by
    rintro rfl
    exact intercalate_unique (CharRange.readsAs_outline hquote) hopen
      (List.append_cancel_left (List.append_cancel_left hbehind))
  cases negated with
  | false =>
      cases negated' with
      | false => rw [hranges rfl]
      | true => simp at hbehind
  | true =>
      cases negated' with
      | false => simp at hbehind
      | true => rw [hranges rfl]

end CharClass

end Classes

namespace Tree

variable {σ : Type} {symbol : σ → String}

/-! ## Trees -/

theorem applied_unique {name operands operands' : String}
    {rest rest' : List Char}
    (h : (applied name operands).toList ++ rest =
      (applied name operands').toList ++ rest') :
    operands.toList ++ ')' :: rest = operands'.toList ++ ')' :: rest' := by
  simp only [applied, String.toList_append, List.append_assoc] at h
  exact List.append_cancel_left (List.append_cancel_left h)

/-- Nested constructors are read as one tree only, if the symbols are. -/
theorem readsAs_constructorText (hsymbol : ∀ s, ReadsAs symbol s) (t : Tree σ) :
    ReadsAs (constructorText symbol) t := by
  -- If the roots are of different kinds, the names differ within their first
  -- six letters.
  induction t with
  | emptyWord =>
      intro u rest rest' h
      cases u with
      | emptyWord => rfl
      | _ => simp [constructorText, applied] at h
  | emptySet =>
      intro u rest rest' h
      cases u with
      | emptySet => rfl
      | _ => simp [constructorText, applied] at h
  | literal s =>
      intro u rest rest' h
      cases u with
      | literal s' => rw [hsymbol s (applied_unique h)]
      | _ => simp [constructorText, applied] at h
  | concat l r hl hr =>
      intro u rest rest' h
      cases u with
      | concat l' r' =>
          obtain ⟨rfl, rfl⟩ := hl.pair hr (applied_unique h)
          rfl
      | _ => simp [constructorText, applied] at h
  | alt l r hl hr =>
      intro u rest rest' h
      cases u with
      | alt l' r' =>
          obtain ⟨rfl, rfl⟩ := hl.pair hr (applied_unique h)
          rfl
      | _ => simp [constructorText, applied] at h
  | star x hx =>
      intro u rest rest' h
      cases u with
      | star x' => rw [hx (applied_unique h)]
      | _ => simp [constructorText, applied] at h

/-! ## One line -/

theorem newline_not_mem_applied {name operands : String}
    (hname : '\n' ∉ name.toList) (hoperands : '\n' ∉ operands.toList) :
    '\n' ∉ (applied name operands).toList := by
  simp [applied, hname, hoperands]

theorem newline_not_mem_constructorText
    (hsymbol : ∀ s, '\n' ∉ (symbol s).toList) (t : Tree σ) :
    '\n' ∉ (t.constructorText symbol).toList := by
  induction t with
  | emptyWord =>
      show '\n' ∉ "EmptyWord".toList
      decide
  | emptySet =>
      show '\n' ∉ "EmptySet".toList
      decide
  | literal s => exact newline_not_mem_applied (by decide) (hsymbol s)
  | concat l r hl hr =>
      exact newline_not_mem_applied (by decide) (by simp [hl, hr])
  | alt l r hl hr =>
      exact newline_not_mem_applied (by decide) (by simp [hl, hr])
  | star x hx => exact newline_not_mem_applied (by decide) hx

end Tree

namespace CharClass

theorem newline_not_mem_rangesText (shown : Char → Bool) (s : CharClass) :
    '\n' ∉ s.rangesText (quoteChar shown) := by
  have hrange (r : CharRange) :
      '\n' ∉ (r.outline (quoteChar shown)).toList := by
    simp [CharRange.outline, newline_not_mem_quoteChar]
  rw [rangesText]
  cases s.ranges with
  | nil => simp
  | cons r ranges =>
      rw [intercalate_cons_toList, List.mem_append, behindCommas,
        List.mem_flatMap]
      rintro (hfirst | ⟨r', -, hother⟩)
      · exact hrange r hfirst
      · simp [hrange] at hother

theorem newline_not_mem_outline (shown : Char → Bool) (s : CharClass) :
    '\n' ∉ (s.outline shown).toList := by
  have htext := outlineWith_toList (quoteChar shown) s []
  rw [List.append_nil] at htext
  intro h
  rw [outline, htext] at h
  simp only [List.mem_append, List.mem_cons, List.not_mem_nil, or_false] at h
  rcases h with hname | hsign | hcolon | hranges | hclose | hclose | hclose
  · exact absurd hname (by decide)
  · split at hsign
    · exact absurd hsign (by decide)
    · exact absurd hsign (by decide)
  · exact absurd hcolon (by decide)
  · exact newline_not_mem_rangesText shown s hranges
  all_goals exact absurd hclose (by decide)

end CharClass

namespace Tree

/-- Trees have the same outline exactly if they are equal, whatever way of
quoting their classes are written with. -/
theorem outline_eq_iff {quote : Char → String} (hquote : QuotesChars quote)
    (a b : Tree CharClass) :
    a.outline (CharClass.outlineWith quote) =
      b.outline (CharClass.outlineWith quote) ↔
      (a == b) = true := by
  rw [beq_iff_eq, outline_eq_constructorText, outline_eq_constructorText]
  constructor
  · intro h
    exact readsAs_constructorText (CharClass.readsAs_outlineWith hquote) a
      (congrArg (·.toList ++ []) h)
  · rintro rfl
    rfl

/-- The outline is the text of the nested constructors, whatever the symbols
are. For classes it determines the tree, with any way to quote their bounds,
and stays on one line, whichever characters are shown as they are. -/
theorem outline_determines_tree :
    (∀ (σ : Type) (symbol : σ → String) (t : Tree σ),
      t.outline symbol = t.constructorText symbol) ∧
    (∀ quote : Char → String, QuotesChars quote → ∀ a b : Tree CharClass,
      a.outline (CharClass.outlineWith quote) =
          b.outline (CharClass.outlineWith quote) ↔
        (a == b) = true) ∧
    (∀ (shown : Char → Bool) (a b : Tree CharClass),
      a.outline (CharClass.outline shown) =
          b.outline (CharClass.outline shown) ↔
        (a == b) = true) ∧
    (∀ (shown : Char → Bool) (t : Tree CharClass),
      '\n' ∉ (t.outline (CharClass.outline shown)).toList) := by
  refine ⟨fun _ => outline_eq_constructorText, fun _ => outline_eq_iff,
    fun shown => outline_eq_iff (quotesChars_quoteChar shown),
      fun shown t => ?_⟩
  rw [outline_eq_constructorText]
  exact newline_not_mem_constructorText
    (CharClass.newline_not_mem_outline shown) t

/-- Bounds that are quotes, commas and brackets, all of them shown as they are.
Both classes begin and end with the same bound. -/
theorem outline_determines_tree_of_commas :
    let shown : Char → Bool := fun c => ' ' ≤ c && c ≤ '~'
    let three : Tree CharClass :=
      .star (.literal ⟨false, [⟨'\'', ','⟩, ⟨')', '('⟩, ⟨',', ']'⟩]⟩)
    let one : Tree CharClass := .star (.literal ⟨false, [⟨'\'', ']'⟩]⟩)
    QuotesChars (quoteChar shown) ∧
      one.outline (CharClass.outline shown) =
        "Star(Literal(CharClass \x7b negated: false, "
          ++ "ranges: [('\\'', ']')] \x7d))" ∧
      three.outline (CharClass.outlineWith (quoteChar shown)) ≠
        one.outline (CharClass.outlineWith (quoteChar shown)) := by
  intro shown three one
  obtain ⟨hlayout, hdetermined, -, -⟩ := outline_determines_tree
  refine ⟨quotesChars_quoteChar shown, ?_, fun h => ?_⟩
  · rw [hlayout]
    decide +kernel
  · have hquote := quotesChars_quoteChar shown
    have hequal := (hdetermined (quoteChar shown) hquote three one).mp h
    simp [three, one] at hequal

end Tree

end PatternSyntax
