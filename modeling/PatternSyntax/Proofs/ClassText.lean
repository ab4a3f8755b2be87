import PatternSyntax.CharClass.Printer
import PatternSyntax.Proofs.ItemSpelling
import PatternSyntax.Proofs.RangeMerging

/-!
# The text of a class is read back as the class

The printer and the grammar know different things about a class. The printer has
its ranges, sorted and merged, and the grammar only items in some order. Between
the two stands the bracket expression the printer has in mind: one item for each
range. Its text is what is printed, and its class is the one printed, because
merging puts the ranges back into their order and finds nothing to merge.

That its text is also one of the grammar is a matter of dashes. A dash may only
stand where no single character comes before it, and the ranges are listed so
that a lower bound that is a dash stands first. At most one of them has such a
bound, as the ranges are separated.

Characters that carry structure have no spelling as literals, so a class with
such a bound has no text, and neither has a class without ranges. No class that
was read is of either kind.
-/

namespace PatternSyntax

/-- The item that covers the range. -/
def CharRange.toItem (r : CharRange) : BracketItem :=
  if r.lo = r.hi then .single r.lo else .range r.lo r.hi

namespace CharRange

@[simp] theorem toItem_lo (r : CharRange) : r.toItem.lo = r.lo := by
  rw [toItem]
  split
  · rfl
  · rfl

@[simp] theorem toItem_hi (r : CharRange) : r.toItem.hi = r.hi := by
  rw [toItem]
  split
  · next h => exact h
  · rfl

theorem toPattern_toList (r : CharRange) :
    r.toPattern.toList = r.toItem.spelling := by
  rw [toPattern, toItem]
  split
  · simp [BracketItem.spelling]
  · simp [BracketItem.spelling]

end CharRange

/-! ## The order of the items -/

/-- Of separated ranges at most one begins with a given character. -/
theorem Separated.lo_inj {ranges : List CharRange} (h : Separated ranges)
    (c : Char) :
    (ranges.filter fun r => r.lo == c).length ≤ 1 := by
  obtain ⟨hvalid, hgaps⟩ := h
  have hgaps := hgaps.filter fun r => r.lo == c
  cases hfirst : ranges.filter fun r => r.lo == c with
  | nil => exact Nat.zero_le 1
  | cons r rest =>
      cases rest with
      | nil => exact Nat.le_refl 1
      | cons s rest =>
          have hr : r ∈ ranges.filter fun r => r.lo == c := by simp [hfirst]
          have hs : s ∈ ranges.filter fun r => r.lo == c := by simp [hfirst]
          rw [List.mem_filter, beq_iff_eq] at hr hs
          rw [hfirst, List.pairwise_cons] at hgaps
          have hgap : r.Before s := hgaps.1 s List.mem_cons_self
          have hle := CharRange.char_le_iff.mp (hvalid r hr.1)
          rw [CharRange.Before, hs.2, ← hr.2] at hgap
          omega

namespace CharClass

theorem printOrder_perm (ranges : List CharRange) :
    (printOrder ranges).Perm ranges := by
  have h := List.filter_append_perm (fun r : CharRange => r.lo == '-') ranges
  exact h

/-- Behind the first range in the printed order none begins with a dash. -/
theorem printOrder_tail {ranges : List CharRange} (h : Separated ranges) :
    ∀ r ∈ (printOrder ranges).tail, r.lo ≠ '-' := by
  have hone := h.lo_inj '-'
  have hothers : ∀ r ∈ ranges.filter fun r => r.lo != '-', r.lo ≠ '-' := by
    intro r hr
    rw [List.mem_filter, bne_iff_ne] at hr
    exact hr.2
  intro r hr
  rw [printOrder] at hr
  cases hdashed : ranges.filter fun r => r.lo == '-' with
  | nil =>
      rw [hdashed, List.nil_append] at hr
      exact hothers r (List.mem_of_mem_tail hr)
  | cons s rest =>
      rw [hdashed, List.length_cons] at hone
      have hrest : rest = [] := List.eq_nil_of_length_eq_zero (by omega)
      rw [hdashed, hrest] at hr
      exact hothers r hr

end CharClass

namespace Grammar

/-- Ranges with literal bounds are spelled as items if no dash begins a later
one. -/
theorem items_of_ranges {ranges : List CharRange}
    (hbounds : ∀ r ∈ ranges,
      r.lo ≤ r.hi ∧ isLiteral r.lo = true ∧ isLiteral r.hi = true)
    (hdash : ∀ r ∈ ranges.tail, r.lo ≠ '-') :
    Items (spellItems (ranges.map CharRange.toItem))
      (ranges.map CharRange.toItem) := by
  refine items_of_keepDashes (fun item hitem => ?_)
    (keepDashes_of_tail fun item hitem => ?_)
  · obtain ⟨r, hr, rfl⟩ := List.mem_map.mp hitem
    rw [CharRange.toItem_lo, CharRange.toItem_hi]
    exact hbounds r hr
  · rw [← List.map_tail] at hitem
    obtain ⟨r, hr, rfl⟩ := List.mem_map.mp hitem
    rw [CharRange.toItem_lo]
    exact hdash r hr

theorem items_bounds {s : List Char} {items : List BracketItem}
    (h : Items s items) :
    ∀ item ∈ items, item.lo ≤ item.hi ∧ isLiteral item.lo = true ∧
      isLiteral item.hi = true := by
  induction h with
  | nil => exact fun _ hitem => nomatch hitem
  | single hc _ _ ih =>
      exact List.forall_mem_cons.mpr ⟨⟨Char.le_refl _, hc, hc⟩, ih⟩
  | range hlo hhi hle _ ih =>
      exact List.forall_mem_cons.mpr ⟨⟨hle, hlo, hhi⟩, ih⟩

end Grammar

/-! ## Classes that have a text -/

namespace CharClass

/-- The class has ranges, and literals for all their bounds. -/
def Spellable (s : CharClass) : Prop :=
  s.ranges ≠ [] ∧ ∀ r ∈ s.ranges, isLiteral r.lo = true ∧ isLiteral r.hi = true

instance (s : CharClass) : Decidable s.Spellable :=
  inferInstanceAs (Decidable (_ ∧ _))

theorem canonical_single (c : Char) : (single c).Canonical :=
  ⟨by simp [single], by simp [single]⟩

theorem canonical_ofBracket (b : Bracket) : (ofBracket b).Canonical :=
  mergeRanges_separated _

/-- Every class made from an atom is in canonical form. -/
theorem canonical_ofAtom (a : Atom) : (ofAtom a).Canonical := by
  cases a with
  | char c => exact canonical_single c
  | bracket b => exact canonical_ofBracket b

theorem spellable_single {c : Char} (h : isLiteral c = true) :
    (single c).Spellable :=
  ⟨List.cons_ne_nil _ _, by simp [single, h]⟩

/-- Every bracket expression of the grammar has a spellable class. -/
theorem spellable_ofBracket {s : List Char} {b : Bracket}
    (h : Grammar.IsBracket s b) :
    (ofBracket b).Spellable := by
  have hitems : ∃ body, Grammar.Items body b.items := by
    cases h with
    | plain h => exact ⟨_, h⟩
    | negated h => exact ⟨_, h⟩
  obtain ⟨body, hitems⟩ := hitems
  have hbounds := Grammar.items_bounds hitems
  constructor
  · obtain ⟨item, hitem⟩ := List.exists_mem_of_ne_nil _ b.nonempty
    exact mergeRanges_ne_nil (List.mem_map_of_mem hitem) (hbounds item hitem).1
  · refine mergeRanges_bounds (P := fun c => isLiteral c = true) fun r hr => ?_
    obtain ⟨item, hitem, rfl⟩ := List.mem_map.mp hr
    exact (hbounds item hitem).2

theorem toBracketText_toList (s : CharClass) :
    s.toBracketText.toList =
      '[' :: ((if s.negated then ['^'] else []) ++
        spellItems ((printOrder s.ranges).map CharRange.toItem) ++ [']']) := by
  have hitems : ∀ ranges : List CharRange,
      (String.join (ranges.map CharRange.toPattern)).toList =
        spellItems (ranges.map CharRange.toItem) := by
    intro ranges
    simp only [String.toList_join, spellItems, List.flatMap_map,
      CharRange.toPattern_toList]
  rw [toBracketText]
  simp only [String.toList_append, hitems]
  cases s.negated with
  | false => rfl
  | true => rfl

/-- The bracket expression that is printed for a class: one item for each
range. -/
def toBracket (s : CharClass) (h : s.ranges ≠ []) : Bracket where
  negated := s.negated
  items := (printOrder s.ranges).map CharRange.toItem
  nonempty := by
    intro hnil
    rw [List.map_eq_nil_iff] at hnil
    have hperm := printOrder_perm s.ranges
    rw [hnil] at hperm
    exact h hperm.nil_eq.symm

/-- Its ranges are those of the class, in another order. -/
theorem ofBracket_toBracket {s : CharClass} (hcanonical : s.Canonical)
    (h : s.ranges ≠ []) :
    ofBracket (s.toBracket h) = s := by
  have hranges :
      (s.toBracket h).items.map (fun item => (⟨item.lo, item.hi⟩ : CharRange)) =
      printOrder s.ranges := by
    rw [toBracket, List.map_map]
    exact List.map_id'' (fun r => by simp) _
  rw [ofBracket, hranges,
    mergeRanges_of_perm (printOrder_perm s.ranges) hcanonical, toBracket]

/-- The bracket text of a spellable class is one of the grammar. -/
theorem isBracket_toBracketText {s : CharClass} (hcanonical : s.Canonical)
    (h : s.Spellable) :
    Grammar.IsBracket s.toBracketText.toList (s.toBracket h.1) := by
  have hitems : Grammar.Items
      (spellItems ((printOrder s.ranges).map CharRange.toItem))
      ((printOrder s.ranges).map CharRange.toItem) := by
    refine Grammar.items_of_ranges (fun r hr => ?_) (printOrder_tail hcanonical)
    have hr := (printOrder_perm s.ranges).mem_iff.mp hr
    exact ⟨hcanonical.1 r hr, h.2 r hr⟩
  rw [toBracketText_toList]
  exact Grammar.isBracket_spelling hitems

/-- A class is written as its one character or as a bracket expression. -/
theorem toPattern_cases (s : CharClass) :
    (∃ c, s = single c ∧ s.toPattern = String.singleton c) ∨
      s.toPattern = s.toBracketText := by
  rw [toPattern]
  split
  · next r hnegated hranges =>
      split
      · next hone =>
          left
          refine ⟨r.lo, ?_, rfl⟩
          obtain ⟨negated, ranges⟩ := s
          obtain ⟨lo, hi⟩ := r
          cases hnegated
          cases hranges
          cases hone
          rfl
      · exact Or.inr rfl
  · exact Or.inr rfl

/-- The text of a spellable class is that of an atom which describes the
class. -/
theorem exists_atom {s : CharClass} (hcanonical : s.Canonical)
    (h : s.Spellable) :
    ∃ a, ofAtom a = s ∧
      ∀ n, Grammar.Base n s.toPattern.toList (.literal a) := by
  rcases s.toPattern_cases with ⟨c, rfl, htext⟩ | htext
  · have hc : isLiteral c = true := (h.2 ⟨c, c⟩ (List.mem_singleton_self _)).1
    refine ⟨.char c, rfl, fun n => ?_⟩
    rw [htext, String.toList_singleton]
    exact .literal hc
  · refine ⟨.bracket (s.toBracket h.1), ofBracket_toBracket hcanonical h.1,
      fun n => ?_⟩
    rw [htext]
    exact .bracket (isBracket_toBracketText hcanonical h)

/-- Only the class of one character is written as that character. -/
theorem toPattern_eq_singleton_iff {s : CharClass} {c : Char} :
    s.toPattern = String.singleton c ↔ s = single c := by
  constructor
  · intro h
    rcases s.toPattern_cases with ⟨d, hs, htext⟩ | htext
    · rw [htext] at h
      have hd := congrArg String.toList h
      rw [String.toList_singleton, String.toList_singleton] at hd
      cases hd
      exact hs
    · rw [htext] at h
      have hlength := congrArg (fun text => text.toList.length) h
      simp [toBracketText_toList] at hlength
  · rintro rfl
    simp [toPattern, single]

end CharClass

end PatternSyntax
