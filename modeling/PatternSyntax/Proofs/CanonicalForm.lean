import PatternSyntax.Proofs.RangeMerging

/-!
# Character classes are a canonical form

A class is a set of characters, but merging decides on code points, and there
are code points that are no characters. So the proofs follow the code points
that the ranges cover, the surrogates among them. Merging keeps them exactly. A
range that is dropped covers none, sorting changes no set, and a range that
reaches the next one is extended over both, with nothing between them that could
be added.

On code points the form is unique. Of separated ranges the first is read off
what all of them cover: it begins at the least code point, and ends before the
first gap. What is left behind it is separated again, and covers the rest.

On characters it nearly is. Only the surrogates can tell two sets of code points
apart that have the same characters, and a range has no surrogate among its
bounds. So it covers all of them or none, and all that the characters leave open
is whether some range does.
-/

namespace PatternSyntax

/-! ## Code points -/

namespace CharRange

/-- The code point lies within the bounds. -/
def HasCode (r : CharRange) (n : Nat) : Prop :=
  r.lo.toNat ≤ n ∧ n ≤ r.hi.toNat

theorem covers_iff {r : CharRange} {c : Char} :
    r.covers c = true ↔ r.HasCode c.toNat := by
  rw [covers, Bool.and_eq_true, decide_eq_true_eq, decide_eq_true_eq,
    char_le_iff, char_le_iff, HasCode]

/-- A range that reaches a later one is extended by just the code points of that
one. -/
theorem hasCode_extend {r s : CharRange} (hlater : r.lo.toNat ≤ s.lo.toNat)
    (hreaches : r.reaches s = true) (n : Nat) :
    (r.extend s).HasCode n ↔ s.HasCode n ∨ r.HasCode n := by
  rw [reaches_iff] at hreaches
  rw [extend]
  split
  · next hle =>
      rw [char_le_iff] at hle
      simp only [HasCode]
      omega
  · next hle =>
      rw [char_le_iff] at hle
      simp only [HasCode]
      omega

end CharRange

/-- One of the ranges has the code point. -/
def CoversCode (ranges : List CharRange) (n : Nat) : Prop :=
  ∃ r ∈ ranges, r.HasCode n

theorem not_coversCode_nil (n : Nat) : ¬ CoversCode [] n := by
  rintro ⟨r, hr, -⟩
  cases hr

theorem coversCode_cons {r : CharRange} {ranges : List CharRange} {n : Nat} :
    CoversCode (r :: ranges) n ↔ r.HasCode n ∨ CoversCode ranges n := by
  simp only [CoversCode, List.mem_cons, exists_eq_or_imp]

/-! ## Merging keeps the code points -/

theorem coversCode_absorb {merged : List CharRange} {r : CharRange}
    (hlater : ∀ x ∈ merged, x.lo.toNat ≤ r.lo.toNat) (n : Nat) :
    CoversCode (absorb merged r) n ↔ r.HasCode n ∨ CoversCode merged n := by
  cases merged with
  | nil => rw [absorb, coversCode_cons]
  | cons last earlier =>
      rw [absorb]
      split
      · next hreaches =>
          have hlast := hlater last List.mem_cons_self
          rw [coversCode_cons, coversCode_cons,
            CharRange.hasCode_extend hlast hreaches, or_assoc]
      · rw [coversCode_cons]

theorem coversCode_foldl_absorb {sorted : List CharRange} (n : Nat) :
    ∀ merged : List CharRange,
      sorted.Pairwise (fun r s => r.lo.toNat ≤ s.lo.toNat) →
      (∀ x ∈ merged, ∀ r ∈ sorted, x.lo.toNat ≤ r.lo.toNat) →
      (CoversCode (sorted.foldl absorb merged) n ↔
        CoversCode sorted n ∨ CoversCode merged n) := by
  induction sorted with
  | nil =>
      intro merged _ _
      rw [List.foldl_nil, or_iff_right (not_coversCode_nil n)]
  | cons r sorted ih =>
      intro merged hsorted hlater
      obtain ⟨hfirst, hsorted⟩ := List.pairwise_cons.mp hsorted
      have hbegin : ∀ x ∈ merged, x.lo.toNat ≤ r.lo.toNat := fun x hx =>
        hlater x hx r List.mem_cons_self
      have hrest :
          ∀ x ∈ absorb merged r, ∀ s ∈ sorted, x.lo.toNat ≤ s.lo.toNat :=
        fun x hx s hs =>
          lo_absorb (fun y hy => hlater y hy s (List.mem_cons_of_mem r hs))
            (hfirst s hs) x hx
      rw [List.foldl_cons, ih _ hsorted hrest, coversCode_absorb hbegin,
        coversCode_cons, or_left_comm, or_assoc]

/-- The merged ranges have the code points of the ranges that were given. -/
theorem coversCode_mergeRanges {ranges : List CharRange} {n : Nat} :
    CoversCode (mergeRanges ranges) n ↔ CoversCode ranges n := by
  have hkept : CoversCode (ranges.filter fun r => r.lo ≤ r.hi) n ↔
      CoversCode ranges n := by
    constructor
    · rintro ⟨r, hr, hcode⟩
      exact ⟨r, (List.mem_filter.mp hr).1, hcode⟩
    · rintro ⟨r, hr, hcode⟩
      have hle : r.lo ≤ r.hi :=
        CharRange.char_le_iff.mpr (Nat.le_trans hcode.1 hcode.2)
      exact ⟨r, List.mem_filter.mpr ⟨hr, decide_eq_true hle⟩, hcode⟩
  have hfold := coversCode_foldl_absorb n []
    (sortedRanges_pairwise (ranges.filter fun r => r.lo ≤ r.hi)) (by simp)
  rw [or_iff_left (not_coversCode_nil n)] at hfold
  simp only [CoversCode, List.mem_mergeSort] at hfold hkept
  simp only [CoversCode, mergeRanges, List.mem_reverse]
  exact hfold.trans hkept

/-! ## Members of a class -/

namespace Bracket

/-- One of the items has the code point. -/
def CoversCode (b : Bracket) (n : Nat) : Prop :=
  ∃ item ∈ b.items, item.lo.toNat ≤ n ∧ n ≤ item.hi.toNat

/-- The character is a bound of one of the items. -/
def IsBound (b : Bracket) (c : Char) : Prop :=
  ∃ item ∈ b.items, c = item.lo ∨ c = item.hi

theorem matches_iff {b : Bracket} {c : Char} :
    b.Matches c ↔ (b.CoversCode c.toNat ↔ b.negated = false) := by
  have hcovers : b.CoversCode c.toNat ↔ ∃ item ∈ b.items, item.Covers c := by
    simp only [CoversCode, BracketItem.Covers, CharRange.char_le_iff]
  rw [Matches, hcovers]
  cases b.negated with
  | false => simp
  | true => simp

end Bracket

namespace CharClass

theorem contains_iff {s : CharClass} {c : Char} :
    s.contains c = true ↔
      (CoversCode s.ranges c.toNat ↔ s.negated = false) := by
  have hcovers : (s.ranges.any fun r => r.covers c) = true ↔
      CoversCode s.ranges c.toNat := by
    simp only [List.any_eq_true, CoversCode, CharRange.covers_iff]
  rw [contains, ← hcovers]
  cases s.ranges.any (fun r => r.covers c) <;> cases s.negated <;> decide

theorem coversCode_iff_contains {s : CharClass} {c : Char} :
    CoversCode s.ranges c.toNat ↔
      (s.contains c = true ↔ s.negated = false) := by
  rw [contains_iff]
  cases s.negated with
  | false => simp
  | true => simp

/-- The class of a bracket expression has the code points of the items. -/
theorem coversCode_ofBracket {b : Bracket} {n : Nat} :
    CoversCode (ofBracket b).ranges n ↔ b.CoversCode n := by
  rw [ofBracket, coversCode_mergeRanges]
  constructor
  · rintro ⟨r, hr, hcode⟩
    obtain ⟨item, hitem, rfl⟩ := List.mem_map.mp hr
    exact ⟨item, hitem, hcode⟩
  · rintro ⟨item, hitem, hcode⟩
    exact ⟨_, List.mem_map_of_mem hitem, hcode⟩

/-- The class of a bracket expression contains the characters that the bracket
expression matches. -/
theorem contains_ofBracket_iff_matches (b : Bracket) (c : Char) :
    (ofBracket b).contains c = true ↔ b.Matches c := by
  rw [contains_iff, coversCode_ofBracket, Bracket.matches_iff]
  rfl

end CharClass

/-! ## Separated ranges are determined by their code points -/

namespace Separated

variable {r s : CharRange} {ranges others : List CharRange} {n : Nat}

theorem tail (h : Separated (r :: ranges)) : Separated ranges :=
  ⟨(List.forall_mem_cons.mp h.1).2, (List.pairwise_cons.mp h.2).2⟩

/-- All code points of the later ranges lie beyond a gap. -/
theorem gap_of_coversCode (h : Separated (r :: ranges))
    (hn : CoversCode ranges n) :
    r.hi.toNat + 1 < n := by
  obtain ⟨t, ht, hlo, -⟩ := hn
  have hgap : r.hi.toNat + 1 < t.lo.toNat := (List.pairwise_cons.mp h.2).1 t ht
  exact Nat.lt_of_lt_of_le hgap hlo

theorem lo_le_hi (h : Separated (r :: ranges)) : r.lo.toNat ≤ r.hi.toNat :=
  CharRange.char_le_iff.mp (List.forall_mem_cons.mp h.1).1

/-- The code points of the later ranges are those beyond the first one. -/
theorem coversCode_tail (h : Separated (r :: ranges)) :
    CoversCode ranges n ↔ CoversCode (r :: ranges) n ∧ r.hi.toNat < n := by
  rw [coversCode_cons]
  constructor
  · intro hn
    have hgap := h.gap_of_coversCode hn
    exact ⟨Or.inr hn, Nat.lt_of_succ_lt hgap⟩
  · rintro ⟨hcode | hn, hlt⟩
    · exact absurd hcode.2 (Nat.not_le_of_lt hlt)
    · exact hn

/-- The first range begins at the least code point. -/
theorem lo_le_of_coversCode (h : Separated (r :: ranges))
    (hn : CoversCode (r :: ranges) n) :
    r.lo.toNat ≤ n := by
  rcases coversCode_cons.mp hn with hcode | hn
  · exact hcode.1
  · have hvalid := h.lo_le_hi
    have hgap := h.gap_of_coversCode hn
    omega

/-- Behind the first range a code point is missing. -/
theorem not_coversCode_gap (h : Separated (r :: ranges)) :
    ¬ CoversCode (r :: ranges) (r.hi.toNat + 1) := by
  intro hn
  have hlater := h.coversCode_tail.mpr ⟨hn, Nat.lt_succ_self _⟩
  exact Nat.lt_irrefl _ (h.gap_of_coversCode hlater)

theorem coversCode_lo (h : Separated (r :: ranges)) :
    CoversCode (r :: ranges) r.lo.toNat :=
  coversCode_cons.mpr (Or.inl ⟨Nat.le_refl _, h.lo_le_hi⟩)

theorem lo_le_lo (h : Separated (r :: ranges)) (h' : Separated (s :: others))
    (hsame : ∀ n, CoversCode (r :: ranges) n ↔ CoversCode (s :: others) n) :
    r.lo.toNat ≤ s.lo.toNat :=
  h.lo_le_of_coversCode ((hsame _).mpr h'.coversCode_lo)

/-- A range that went on beyond the other would cover the gap behind it. -/
theorem hi_le_hi (h : Separated (r :: ranges)) (h' : Separated (s :: others))
    (hsame : ∀ n, CoversCode (r :: ranges) n ↔ CoversCode (s :: others) n) :
    s.hi.toNat ≤ r.hi.toNat := by
  refine Nat.le_of_not_lt fun hlt => h.not_coversCode_gap ((hsame _).mpr ?_)
  have hlo := h'.lo_le_lo h fun n => (hsame n).symm
  have hvalid := h.lo_le_hi
  exact coversCode_cons.mpr (Or.inl ⟨by omega, hlt⟩)

/-- Separated ranges that have the same code points are the same. -/
theorem eq_of_coversCode_iff (h : Separated ranges) (h' : Separated others)
    (hsame : ∀ n, CoversCode ranges n ↔ CoversCode others n) :
    ranges = others := by
  induction ranges generalizing others with
  | nil =>
      cases others with
      | nil => rfl
      | cons s others =>
          exact absurd ((hsame _).mpr h'.coversCode_lo) (not_coversCode_nil _)
  | cons r ranges ih =>
      cases others with
      | nil =>
          exact absurd ((hsame _).mp h.coversCode_lo) (not_coversCode_nil _)
      | cons s others =>
          have hsame' := fun n => (hsame n).symm
          obtain rfl : r = s := CharRange.eq_of_toNat_eq
            (Nat.le_antisymm (h.lo_le_lo h' hsame) (h'.lo_le_lo h hsame'))
            (Nat.le_antisymm (h'.hi_le_hi h hsame') (h.hi_le_hi h' hsame))
          rw [ih h.tail h'.tail fun n => ?_]
          rw [h.coversCode_tail, h'.coversCode_tail, hsame]

end Separated

/-! ## What the characters leave open -/

theorem toNat_valid (c : Char) :
    c.toNat < 0xD800 ∨ 0xDFFF < c.toNat ∧ c.toNat < 0x110000 :=
  c.valid

theorem CharRange.hasCode_surrogate {r : CharRange} {n : Nat} (hlo : 0xD800 ≤ n)
    (hhi : n ≤ 0xDFFF) :
    r.HasCode n ↔ r.covers '\uD7FF' = true ∧ r.covers '\uE000' = true := by
  have hbefore : '\uD7FF'.toNat = 0xD7FF := rfl
  have hbehind : '\uE000'.toNat = 0xE000 := rfl
  have hvalidLo := toNat_valid r.lo
  have hvalidHi := toNat_valid r.hi
  rw [covers_iff, covers_iff, HasCode, HasCode, HasCode, hbefore, hbehind]
  omega

namespace CharClass

/-- One range holds the characters on both sides of the surrogates. -/
def BridgesSurrogates (s : CharClass) : Prop :=
  ∃ r ∈ s.ranges, r.covers '\uD7FF' = true ∧ r.covers '\uE000' = true

/-- The code points of a class are its characters and, if a range goes over
them, the surrogates. -/
theorem coversCode_congr {s t : CharClass}
    (hchars : ∀ c : Char,
      CoversCode s.ranges c.toNat ↔ CoversCode t.ranges c.toNat)
    (hbridge : s.BridgesSurrogates ↔ t.BridgesSurrogates) (n : Nat) :
    CoversCode s.ranges n ↔ CoversCode t.ranges n := by
  by_cases hvalid : n.isValidChar
  · exact hchars (Char.ofNatAux n hvalid)
  · rw [Nat.isValidChar, not_or] at hvalid
    by_cases hsurrogate : n ≤ 0xDFFF
    · have hsame :
          ∀ s : CharClass, CoversCode s.ranges n ↔ s.BridgesSurrogates := by
        intro s
        have hcode : ∀ r : CharRange, _ := fun r =>
          r.hasCode_surrogate (Nat.le_of_not_lt hvalid.1) hsurrogate
        simp only [CoversCode, BridgesSurrogates, hcode]
      rw [hsame, hsame, hbridge]
    · have hnone : ∀ s : CharClass, ¬ CoversCode s.ranges n := by
        rintro s ⟨r, -, -, hhi⟩
        have hmax := toNat_valid r.hi
        omega
      exact iff_of_false (hnone s) (hnone t)

/-- The class of a bracket expression tells its code points, and nothing else
but the negation. -/
theorem ofBracket_eq_iff_coversCode {a b : Bracket} :
    ofBracket a = ofBracket b ↔
      a.negated = b.negated ∧ ∀ n, a.CoversCode n ↔ b.CoversCode n := by
  constructor
  · intro h
    refine ⟨congrArg CharClass.negated h, fun n => ?_⟩
    rw [← coversCode_ofBracket, h, coversCode_ofBracket]
  · rintro ⟨hnegated, hcodes⟩
    have hranges : (ofBracket a).ranges = (ofBracket b).ranges := by
      refine (mergeRanges_separated _).eq_of_coversCode_iff
        (mergeRanges_separated _) fun n => ?_
      exact coversCode_ofBracket.trans
        ((hcodes n).trans coversCode_ofBracket.symm)
    show CharClass.mk a.negated (ofBracket a).ranges =
      ⟨b.negated, (ofBracket b).ranges⟩
    rw [hnegated, hranges]

theorem ofBracket_eq_iff_contains {a b : Bracket} :
    ofBracket a = ofBracket b ↔
      a.negated = b.negated ∧
        (∀ c, (ofBracket a).contains c = (ofBracket b).contains c) ∧
        ((ofBracket a).BridgesSurrogates ↔
          (ofBracket b).BridgesSurrogates) := by
  constructor
  · intro h
    rw [h]
    exact ⟨congrArg CharClass.negated h, fun _ => rfl, Iff.rfl⟩
  · rintro ⟨hnegated, hcontains, hbridge⟩
    refine ofBracket_eq_iff_coversCode.mpr ⟨hnegated, fun n => ?_⟩
    rw [← coversCode_ofBracket, ← coversCode_ofBracket]
    refine coversCode_congr (fun c => ?_) hbridge n
    have hflag : (ofBracket a).negated = (ofBracket b).negated := hnegated
    rw [coversCode_iff_contains, coversCode_iff_contains, hcontains, hflag]

/-- The class of a bracket expression is a canonical form. Its ranges ascend
with a code point between any two, and all their bounds were bounds of items.
Two classes are the same exactly if they are negated alike and contain the same
characters, and a range bridges the surrogates in both or in neither. What
decides is which code points lie within an item; the order of the items, their
repetition and the places where one ends and another goes on do not matter. -/
theorem ofBracket_canonical_form (a b : Bracket) :
    (ofBracket a).Canonical ∧
    (∀ r ∈ (ofBracket a).ranges, a.IsBound r.lo ∧ a.IsBound r.hi) ∧
    (ofBracket a = ofBracket b ↔
      a.negated = b.negated ∧
        (∀ c, (ofBracket a).contains c = (ofBracket b).contains c) ∧
        ((ofBracket a).BridgesSurrogates ↔ (ofBracket b).BridgesSurrogates)) ∧
    (ofBracket a = ofBracket b ↔
      a.negated = b.negated ∧ ∀ n, a.CoversCode n ↔ b.CoversCode n) := by
  have hbounds :
      ∀ r ∈ (ofBracket a).ranges, a.IsBound r.lo ∧ a.IsBound r.hi := by
    refine mergeRanges_bounds fun r hr => ?_
    obtain ⟨item, hitem, rfl⟩ := List.mem_map.mp hr
    exact ⟨⟨item, hitem, Or.inl rfl⟩, ⟨item, hitem, Or.inr rfl⟩⟩
  exact ⟨mergeRanges_separated _, hbounds, ofBracket_eq_iff_contains,
    ofBracket_eq_iff_coversCode⟩

/-- Items in another order, divided otherwise, repeated and with a descending
one among them; and two classes that differ in the surrogates alone. -/
theorem ofBracket_canonical_form_of_respelled :
    let a : Bracket :=
      ⟨false, [.range 'x' 'z', .range 'a' 'f', .range 'd' 'k', .single 'l',
        .range 'z' 'a'], by decide⟩
    let b : Bracket :=
      ⟨false, [.single 'l', .range 'a' 'k', .range 'x' 'y', .single 'z',
        .single 'l'], by decide⟩
    let beside : Bracket :=
      ⟨true, [.single '\uE000', .single '\uD7FF'], by decide⟩
    let across : Bracket := ⟨true, [.range '\uD7FF' '\uE000'], by decide⟩
    ofBracket a = ofBracket b ∧
      (∀ r ∈ (ofBracket a).ranges, b.IsBound r.lo ∧ b.IsBound r.hi) ∧
      ofBracket beside ≠ ofBracket across ∧
      ∀ c, (ofBracket beside).contains c = (ofBracket across).contains c := by
  intro a b beside across
  have hsame : ofBracket a = ofBracket b := by
    obtain ⟨-, -, -, hcodes⟩ := ofBracket_canonical_form a b
    refine hcodes.mpr ⟨rfl, fun n => ?_⟩
    simp only [a, b, Bracket.CoversCode, BracketItem.lo, BracketItem.hi,
      List.mem_cons, List.not_mem_nil, or_false, exists_eq_or_imp,
      exists_eq_left, Char.reduceToNat]
    omega
  obtain ⟨-, hbounds, -, -⟩ := ofBracket_canonical_form b a
  obtain ⟨-, -, -, hcodes⟩ := ofBracket_canonical_form beside across
  refine ⟨hsame, hsame ▸ hbounds, fun h => ?_, fun c => ?_⟩
  · have hsurrogate :=
      ((hcodes.mp h).2 0xD800).mpr ⟨_, List.mem_cons_self, by decide⟩
    simp [beside, Bracket.CoversCode, BracketItem.lo,
      BracketItem.hi] at hsurrogate
  · have hvalid := toNat_valid c
    rw [Bool.eq_iff_iff, contains_iff, contains_iff, coversCode_ofBracket,
      coversCode_ofBracket]
    simp only [beside, across, Bracket.CoversCode, BracketItem.lo,
      BracketItem.hi, List.mem_cons, List.not_mem_nil, or_false,
      exists_eq_or_imp, exists_eq_left, Char.reduceToNat]
    show (_ ↔ true = false) ↔ (_ ↔ true = false)
    simp only [Bool.true_eq_false, iff_false]
    omega

end CharClass

end PatternSyntax
