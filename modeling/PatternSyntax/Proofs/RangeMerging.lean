import PatternSyntax.CharClass.Basic

/-!
# Merged ranges are in canonical form

The merging pass sees the ranges by ascending lower bounds and keeps those it
has finished with behind the one it may still extend. What it keeps is
separated: a code point lies between any two of its ranges. A new range begins
no earlier than all of them, so it either touches the last one, and extending
that one moves only its upper bound, or it lies beyond all of them. That is the
whole invariant.

Ranges that are separated already are not changed, in whatever order they are
given, because sorting brings them back into their order and none of them
touches another.
-/

namespace PatternSyntax

namespace CharRange

theorem char_le_iff {a b : Char} : a ≤ b ↔ a.toNat ≤ b.toNat := by
  rw [Char.le_def, UInt32.le_iff_toNat_le]
  rfl

theorem char_lt_iff {a b : Char} : a < b ↔ a.toNat < b.toNat := by
  rw [Char.lt_def, UInt32.lt_iff_toNat_lt]
  rfl

theorem le_iff {r s : CharRange} :
    r.le s = true ↔ r.lo.toNat < s.lo.toNat ∨
      (r.lo.toNat = s.lo.toNat ∧ r.hi.toNat ≤ s.hi.toNat) := by
  simp only [le, Bool.or_eq_true, Bool.and_eq_true, decide_eq_true_eq,
    beq_iff_eq, char_lt_iff, char_le_iff, Char.toNat_inj]

theorem le_trans (r s t : CharRange) (hrs : r.le s = true)
    (hst : s.le t = true) :
    r.le t = true := by
  rw [le_iff] at hrs hst ⊢
  omega

theorem le_total (r s : CharRange) : (r.le s || s.le r) = true := by
  rw [Bool.or_eq_true, le_iff, le_iff]
  omega

theorem eq_of_toNat_eq {r s : CharRange} (hlo : r.lo.toNat = s.lo.toNat)
    (hhi : r.hi.toNat = s.hi.toNat) : r = s := by
  cases r
  cases s
  cases Char.toNat_inj.mp hlo
  cases Char.toNat_inj.mp hhi
  rfl

theorem le_antisymm {r s : CharRange} (hrs : r.le s = true)
    (hsr : s.le r = true) : r = s := by
  rw [le_iff] at hrs hsr
  exact eq_of_toNat_eq (by omega) (by omega)

theorem reaches_iff {r s : CharRange} :
    r.reaches s = true ↔ s.lo.toNat ≤ r.hi.toNat + 1 := by
  rw [reaches, decide_eq_true_eq]

/-- The range ends before the other one begins, with a code point between. -/
def Before (r s : CharRange) : Prop :=
  r.hi.toNat + 1 < s.lo.toNat

theorem hi_extend (r s : CharRange) :
    (r.extend s).hi = r.hi ∨ (r.extend s).hi = s.hi := by
  rw [extend]
  dsimp only
  split
  · exact Or.inr rfl
  · exact Or.inl rfl

theorem hi_le_extend (r s : CharRange) : r.hi ≤ (r.extend s).hi := by
  rw [extend]
  dsimp only
  split
  · next h => exact h
  · exact Char.le_refl _

end CharRange

/-- The ranges cover something and ascend with gaps between them. -/
def Separated (ranges : List CharRange) : Prop :=
  (∀ r ∈ ranges, r.lo ≤ r.hi) ∧ ranges.Pairwise CharRange.Before

/-! ## The merging pass -/

theorem absorb_ne_nil (merged : List CharRange) (r : CharRange) :
    absorb merged r ≠ [] := by
  cases merged with
  | nil => exact List.cons_ne_nil _ _
  | cons last earlier =>
      rw [absorb]
      split
      · exact List.cons_ne_nil _ _
      · exact List.cons_ne_nil _ _

/-- Every bound in the result is the bound of a range before the pass. -/
theorem absorb_bounds {P : Char → Prop} {merged : List CharRange}
    {r : CharRange} (hmerged : ∀ x ∈ merged, P x.lo ∧ P x.hi)
    (hr : P r.lo ∧ P r.hi) :
    ∀ x ∈ absorb merged r, P x.lo ∧ P x.hi := by
  cases merged with
  | nil =>
      intro x hx
      rw [absorb, List.mem_singleton] at hx
      exact hx ▸ hr
  | cons last earlier =>
      obtain ⟨hlast, hearlier⟩ := List.forall_mem_cons.mp hmerged
      rw [absorb]
      split
      · refine List.forall_mem_cons.mpr ⟨⟨hlast.1, ?_⟩, hearlier⟩
        rcases CharRange.hi_extend last r with h | h
        · exact h ▸ hlast.2
        · exact h ▸ hr.2
      · exact List.forall_mem_cons.mpr ⟨hr, hmerged⟩

/-- A range that begins no earlier than the merged ones keeps them separated. -/
theorem absorb_separated {merged : List CharRange} {r : CharRange}
    (h : Separated merged.reverse) (hr : r.lo ≤ r.hi)
    (hlater : ∀ x ∈ merged, x.lo.toNat ≤ r.lo.toNat) :
    Separated (absorb merged r).reverse := by
  cases merged with
  | nil => exact ⟨by simpa [absorb] using hr, by simp [absorb]⟩
  | cons last earlier =>
      obtain ⟨hvalid, hgaps⟩ := h
      rw [List.reverse_cons, List.pairwise_append] at hgaps
      obtain ⟨hgaps, -, hlast⟩ := hgaps
      have hlastBefore : ∀ x ∈ earlier.reverse, x.Before last := fun x hx =>
        hlast x hx last (List.mem_singleton_self last)
      have hlastValid : last.lo ≤ last.hi := hvalid last (by simp)
      rw [absorb]
      split
      · next htouch =>
          rw [List.reverse_cons]
          refine ⟨fun x hx => ?_, List.pairwise_append.mpr
            ⟨hgaps, List.pairwise_singleton _ _, fun x hx y hy => ?_⟩⟩
          · rcases List.mem_append.mp hx with hx | hx
            · exact hvalid x (by simp [List.mem_reverse.mp hx])
            · rw [List.mem_singleton.mp hx]
              exact Char.le_trans hlastValid (last.hi_le_extend r)
          · rw [List.mem_singleton.mp hy]
            exact hlastBefore x hx
      · next htouch =>
          rw [List.reverse_cons]
          have hlastGap : last.Before r := by
            rw [CharRange.reaches_iff] at htouch
            exact Nat.lt_of_not_le htouch
          refine ⟨fun x hx => ?_, List.pairwise_append.mpr
            ⟨?_, List.pairwise_singleton _ _, fun x hx y hy => ?_⟩⟩
          · rcases List.mem_append.mp hx with hx | hx
            · exact hvalid x hx
            · rw [List.mem_singleton.mp hx]
              exact hr
          · rw [List.reverse_cons]
            exact List.pairwise_append.mpr
              ⟨hgaps, List.pairwise_singleton _ _, hlast⟩
          · rw [List.mem_singleton.mp hy]
            rw [List.reverse_cons] at hx
            rcases List.mem_append.mp hx with hx | hx
            · -- Beyond the last range means beyond all of them.
              have hgap := hlastBefore x hx
              rw [CharRange.char_le_iff] at hlastValid
              simp only [CharRange.Before] at hgap hlastGap ⊢
              omega
            · rw [List.mem_singleton.mp hx]
              exact hlastGap

theorem lo_absorb {merged : List CharRange} {r s : CharRange}
    (hmerged : ∀ x ∈ merged, x.lo.toNat ≤ s.lo.toNat)
    (hr : r.lo.toNat ≤ s.lo.toNat) :
    ∀ x ∈ absorb merged r, x.lo.toNat ≤ s.lo.toNat := by
  cases merged with
  | nil =>
      intro x hx
      rw [absorb, List.mem_singleton] at hx
      exact hx ▸ hr
  | cons last earlier =>
      obtain ⟨hlast, hearlier⟩ := List.forall_mem_cons.mp hmerged
      rw [absorb]
      split
      · exact List.forall_mem_cons.mpr ⟨hlast, hearlier⟩
      · exact List.forall_mem_cons.mpr ⟨hr, hmerged⟩

theorem foldl_absorb_separated {sorted : List CharRange} :
    ∀ {merged : List CharRange}, Separated merged.reverse →
      (∀ r ∈ sorted, r.lo ≤ r.hi) →
      sorted.Pairwise (fun r s => r.lo.toNat ≤ s.lo.toNat) →
      (∀ x ∈ merged, ∀ r ∈ sorted, x.lo.toNat ≤ r.lo.toNat) →
      Separated (sorted.foldl absorb merged).reverse := by
  induction sorted with
  | nil => exact fun h _ _ _ => h
  | cons r sorted ih =>
      intro merged h hvalid hsorted hlater
      obtain ⟨hr, hvalid⟩ := List.forall_mem_cons.mp hvalid
      obtain ⟨hfirst, hsorted⟩ := List.pairwise_cons.mp hsorted
      have hbegin : ∀ x ∈ merged, x.lo.toNat ≤ r.lo.toNat := fun x hx =>
        hlater x hx r List.mem_cons_self
      refine ih (absorb_separated h hr hbegin) hvalid hsorted
        fun x hx s hs => ?_
      exact lo_absorb (fun y hy => hlater y hy s (List.mem_cons_of_mem r hs))
        (hfirst s hs) x hx

/-- Separated ranges are kept as they are. -/
theorem foldl_absorb_of_separated {ranges : List CharRange} :
    ∀ {merged : List CharRange}, ranges.Pairwise CharRange.Before →
      (∀ x ∈ merged, ∀ r ∈ ranges, x.Before r) →
      ranges.foldl absorb merged = ranges.reverse ++ merged := by
  induction ranges with
  | nil => exact fun _ _ => rfl
  | cons r ranges ih =>
      intro merged hgaps hlater
      obtain ⟨hfirst, hgaps⟩ := List.pairwise_cons.mp hgaps
      have habsorb : absorb merged r = r :: merged := by
        cases merged with
        | nil => rfl
        | cons last earlier =>
            have hgap := hlater last List.mem_cons_self r List.mem_cons_self
            rw [absorb, if_neg]
            rw [CharRange.reaches_iff]
            exact Nat.not_le_of_lt hgap
      rw [List.foldl_cons, habsorb, ih hgaps, List.reverse_cons,
        List.append_assoc]
      · rfl
      · refine List.forall_mem_cons.mpr ⟨hfirst, fun x hx s hs => ?_⟩
        exact hlater x hx s (List.mem_cons_of_mem r hs)

/-! ## Merging as a whole -/

theorem sortedRanges_pairwise (ranges : List CharRange) :
    (ranges.mergeSort CharRange.le).Pairwise
      fun r s => r.lo.toNat ≤ s.lo.toNat := by
  have hpairwise :=
    List.pairwise_mergeSort CharRange.le_trans CharRange.le_total ranges
  refine hpairwise.imp ?_
  intro r s h
  rw [CharRange.le_iff] at h
  omega

theorem mergeRanges_separated (ranges : List CharRange) :
    Separated (mergeRanges ranges) := by
  rw [mergeRanges]
  refine foldl_absorb_separated ⟨by simp, by simp⟩ ?_ (sortedRanges_pairwise _)
    (by simp)
  intro r hr
  rw [List.mem_mergeSort, List.mem_filter] at hr
  exact of_decide_eq_true hr.2

theorem mergeRanges_bounds {P : Char → Prop} {ranges : List CharRange}
    (h : ∀ r ∈ ranges, P r.lo ∧ P r.hi) :
    ∀ r ∈ mergeRanges ranges, P r.lo ∧ P r.hi := by
  have hfold : ∀ (sorted merged : List CharRange),
      (∀ r ∈ sorted, P r.lo ∧ P r.hi) →
      (∀ r ∈ merged, P r.lo ∧ P r.hi) →
      ∀ r ∈ sorted.foldl absorb merged, P r.lo ∧ P r.hi := by
    intro sorted
    induction sorted with
    | nil => exact fun _ _ h => h
    | cons r sorted ih =>
        intro merged hsorted hmerged
        obtain ⟨hr, hsorted⟩ := List.forall_mem_cons.mp hsorted
        exact ih _ hsorted (absorb_bounds hmerged hr)
  intro r hr
  rw [mergeRanges, List.mem_reverse] at hr
  refine hfold _ [] (fun x hx => ?_) (by simp) r hr
  rw [List.mem_mergeSort, List.mem_filter] at hx
  exact h x hx.1

theorem mergeRanges_ne_nil {ranges : List CharRange} {r : CharRange}
    (hr : r ∈ ranges) (hvalid : r.lo ≤ r.hi) : mergeRanges ranges ≠ [] := by
  have hfold : ∀ (sorted merged : List CharRange), merged ≠ [] →
      sorted.foldl absorb merged ≠ [] := by
    intro sorted
    induction sorted with
    | nil => exact fun _ h => h
    | cons s sorted ih => exact fun merged _ => ih _ (absorb_ne_nil merged s)
  have hmem :
      r ∈ (ranges.filter fun r => r.lo ≤ r.hi).mergeSort CharRange.le := by
    rw [List.mem_mergeSort, List.mem_filter]
    exact ⟨hr, decide_eq_true hvalid⟩
  rw [mergeRanges]
  intro h
  rw [List.reverse_eq_nil_iff] at h
  cases hsorted :
      (ranges.filter fun r => r.lo ≤ r.hi).mergeSort CharRange.le with
  | nil =>
      rw [hsorted] at hmem
      cases hmem
  | cons s sorted =>
      rw [hsorted] at h
      exact hfold sorted _ (absorb_ne_nil [] s) h

/-- Merging ranges that are separated already puts them in order and does
nothing else. -/
theorem mergeRanges_of_perm {ranges separated : List CharRange}
    (hperm : ranges.Perm separated) (h : Separated separated) :
    mergeRanges ranges = separated := by
  obtain ⟨hvalid, hgaps⟩ := h
  have hfilter : (ranges.filter fun r => decide (r.lo ≤ r.hi)) = ranges := by
    refine List.filter_eq_self.mpr fun r hr => ?_
    exact decide_eq_true (hvalid r (hperm.mem_iff.mp hr))
  have hascending : separated.Pairwise fun r s => r.le s = true := by
    refine hgaps.imp_of_mem fun {r s} hr _ hgap => ?_
    have hr' := CharRange.char_le_iff.mp (hvalid r hr)
    rw [CharRange.le_iff]
    rw [CharRange.Before] at hgap
    omega
  have hsort : ranges.mergeSort CharRange.le = separated :=
    List.Perm.eq_of_pairwise (fun r s _ _ => CharRange.le_antisymm)
      (List.pairwise_mergeSort CharRange.le_trans CharRange.le_total ranges)
        hascending
      ((List.mergeSort_perm ranges _).trans hperm)
  rw [mergeRanges, hfilter, hsort, foldl_absorb_of_separated hgaps (by simp)]
  simp

end PatternSyntax
