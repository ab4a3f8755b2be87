import PatternSyntax.Proofs.GroupNesting
import PatternSyntax.Proofs.RoundTrip

/-!
# The printed pattern has the fewest groups

A pattern that was read can be printed again, and what comes out is its normal
form: of all patterns with the same tree it opens the fewest groups and nests
them the least. So it is read under the same limit, and as the same tree.

The printer groups an operand exactly where the grammar has no other way to hold
it. The argument is about the two numbers that belong to a tree: how many groups
printing it takes, and how many of them lie inside one another. Each production
can hold a tree of some roots only in a group, so by induction over the
derivation every text of the tree has that many groups. For the nesting nothing
has to be added, since a text is derived under the limit that is its own
nesting.

A literal that is spelled like a mark is the exception. It has a text without
any group, a bracket expression, but is printed in one.
-/

namespace PatternSyntax

/-- The text opens at most as many groups as the other, and nests them at most
as deep. -/
structure NoMoreGroups (text other : List Char) : Prop where
  count : text.count '(' ≤ other.count '('
  nesting : nesting text ≤ nesting other

namespace Tree

variable {σ ρ : Type}

/-- The number of groups in the spelling. -/
def groupCount : Tree σ → Nat
  | emptyWord => 0
  | emptySet => 0
  | literal _ => 0
  | concat l r =>
    (l.groupCount + (l.isAlt || l.isConcat).toNat) +
      (r.groupCount + r.isAlt.toNat)
  | alt l r => (l.groupCount + l.isAlt.toNat) + r.groupCount
  | star x => x.groupCount + (!x.isLiteral).toNat

@[simp] theorem groupCount_map (f : σ → ρ) (t : Tree σ) :
    (t.map f).groupCount = t.groupCount := by
  induction t with
  | emptyWord => rfl
  | emptySet => rfl
  | literal s => rfl
  | concat l r hl hr =>
      simp only [map, groupCount, hl, hr, isAlt_map, isConcat_map]
  | alt l r hl hr => simp only [map, groupCount, hl, hr, isAlt_map]
  | star x hx => simp only [map, groupCount, hx, isLiteral_map]

theorem count_grouped (needed : Bool) (text : String) :
    (grouped needed text).toList.count '(' =
      text.toList.count '(' + needed.toNat := by
  cases needed with
  | false => rfl
  | true => simp [grouped, List.count_append]

/-- The spelling opens the groups that were counted, and the symbols open
none. -/
theorem count_spelling {symbol : σ → String} {t : Tree σ}
    (hleaves : ∀ s ∈ t.leaves, (symbol s).toList.count '(' = 0) :
    (t.spelling symbol).toList.count '(' = t.groupCount := by
  induction t with
  | emptyWord =>
      have hne : emptyWordMark ≠ '(' := by decide
      rw [spelling, emptyWordText, String.toList_singleton,
        List.count_cons_of_ne hne]
      rfl
  | emptySet =>
      have hne : emptySetMark ≠ '(' := by decide
      rw [spelling, emptySetText, String.toList_singleton,
        List.count_cons_of_ne hne]
      rfl
  | literal s => exact hleaves s (List.mem_singleton_self s)
  | concat l r hl hr =>
      obtain ⟨hleft, hright⟩ := List.forall_mem_append.mp hleaves
      rw [spelling, String.toList_append, List.count_append, count_grouped,
        count_grouped, hl hleft, hr hright, groupCount]
  | alt l r hl hr =>
      obtain ⟨hleft, hright⟩ := List.forall_mem_append.mp hleaves
      have hbar : "|".toList.count '(' = 0 := by decide
      rw [spelling, String.toList_append, String.toList_append,
        List.count_append, List.count_append, count_grouped, hbar, hl hleft,
        hr hright, groupCount, Nat.add_zero]
  | star x hx =>
      have hstar : "*".toList.count '(' = 0 := by decide
      rw [spelling, String.toList_append, List.count_append, count_grouped,
        hstar, hx hleaves, groupCount, Nat.add_zero]

end Tree

namespace Grammar

/-! ## Every text of a tree has its groups

The same as for the depth: a production that can hold the root only in a group
has paid for one. -/

mutual

theorem groupCount_of_regex {n : Nat} {s : List Char} {t : Tree Atom} :
    Regex n s t → t.groupCount ≤ s.count '('
  | .last h => Nat.le_of_add_right_le (groupCount_of_branch h)
  | .more h hrest => by
      have hfirst := groupCount_of_branch h
      have hothers := groupCount_of_regex hrest
      rw [Tree.groupCount, List.count_append, List.count_cons_of_ne (by decide)]
      omega

theorem groupCount_of_branch {n : Nat} {s : List Char} {t : Tree Atom} :
    Branch n s t → t.groupCount + t.isAlt.toNat ≤ s.count '('
  | .last (t := t) h => by
      have hfactor := groupCount_of_factor h
      have hle : t.isAlt.toNat ≤ (t.isAlt || t.isConcat).toNat := by
        cases t.isAlt <;> simp
      omega
  | .more (t := t) (u := u) h hrest => by
      have hfirst := groupCount_of_factor h
      have hothers := groupCount_of_branch hrest
      have hroot : (Tree.concat t u).isAlt.toNat = 0 := rfl
      rw [Tree.groupCount, List.count_append, hroot]
      omega

theorem groupCount_of_factor {n : Nat} {s : List Char} {t : Tree Atom} :
    Factor n s t → t.groupCount + (t.isAlt || t.isConcat).toNat ≤ s.count '('
  | .once (t := t) h => by
      have hbase := groupCount_of_base h
      have hle : (t.isAlt || t.isConcat).toNat ≤ (!t.isLiteral).toNat := by
        cases t <;> simp [Tree.isAlt, Tree.isConcat, Tree.isLiteral]
      omega
  | .star h => by
      rw [List.count_append]
      exact Nat.le_add_right_of_le (groupCount_of_base h)

theorem groupCount_of_base {n : Nat} {s : List Char} {t : Tree Atom} :
    Base n s t → t.groupCount + (!t.isLiteral).toNat ≤ s.count '('
  | .literal _ => Nat.zero_le _
  | .group (t := t) h => by
      have hinside := groupCount_of_regex h
      have hle : (!t.isLiteral).toNat ≤ 1 := Bool.toNat_le _
      rw [List.count_cons_self, List.count_append]
      omega
  | .bracket _ => Nat.zero_le _

end

/-! ## The printed text among the others -/

/-- A tree that has a text is expressible, with the groups that printing it
needs. -/
theorem expressible_of_text {n : Nat} {s : List Char} {u : Tree Atom}
    {t : Tree CharClass} (h : Regex n s u) (hu : u.map CharClass.ofAtom = t) :
    t.Expressible t.neededGroups := by
  subst hu
  refine ⟨?_, ?_, Nat.le_refl _⟩
  · rw [Tree.markFree_map]
    exact markFree_of_regex h
  · intro s hs
    rw [Tree.leaves_map] at hs
    obtain ⟨a, ha, rfl⟩ := List.mem_map.mp hs
    exact spellable_of_regex h a ha

theorem canonical_of_map {u : Tree Atom} {t : Tree CharClass}
    (hu : u.map CharClass.ofAtom = t) :
    ∀ s ∈ t.leaves, s.Canonical := by
  subst hu
  intro s hs
  rw [Tree.leaves_map] at hs
  obtain ⟨a, -, rfl⟩ := List.mem_map.mp hs
  exact CharClass.canonical_ofAtom a

/-- The text of a symbol opens no group. -/
theorem count_symbol {s : CharClass} (hcanonical : s.Canonical)
    (h : s.Spellable) :
    s.toPattern.toList.count '(' = 0 := by
  obtain ⟨a, -, hbase⟩ := CharClass.exists_atom hcanonical h
  exact count_open_of_base_zero (hbase 0)

theorem noMoreGroups_of_regex {n : Nat} {s : List Char} {u : Tree Atom}
    {t : Tree CharClass} (h : Regex n s u) (hu : u.map CharClass.ofAtom = t)
    (hmark : t.spelledAsMark = false) :
    NoMoreGroups (t.toPattern CharClass.toPattern).toList s := by
  have hexpressible := expressible_of_text h hu
  have hcanonical := canonical_of_map hu
  constructor
  · have hleaves :
        ∀ s ∈ t.leaves, s.toPattern.toList.count '(' = 0 := fun s hs =>
      count_symbol (hcanonical s hs) (hexpressible.spellable s hs)
    have hforced := groupCount_of_regex h
    rw [← Tree.groupCount_map CharClass.ofAtom, hu] at hforced
    rw [Tree.toPattern_eq_grouped, hmark, Tree.count_grouped,
      Tree.count_spelling hleaves]
    exact hforced
  · obtain ⟨v, -, hprinted⟩ := exists_regex hexpressible hcanonical
    have hforced := groupDepth_of_regex (h.within (Nat.le_refl _))
    rw [← Tree.groupDepth_map CharClass.ofAtom, hu] at hforced
    have hneeded : t.neededGroups = t.groupDepth := by
      rw [Tree.neededGroups, hmark]
      rfl
    exact Nat.le_trans (nesting_of_regex hprinted) (hneeded ▸ hforced)

end Grammar

theorem noMoreGroups_of_count_eq_zero {text : List Char}
    (h : text.count '(' = 0) (other : List Char) : NoMoreGroups text other where
  count := h ▸ Nat.zero_le _
  nesting := Nat.le_trans (h ▸ nesting_le_count text) (Nat.zero_le _)

namespace Tree

/-- The printed tree has no more groups than any pattern that is read as the
tree. -/
theorem noMoreGroups_of_parse {limit : UInt32} {pattern : String}
    {t : Tree CharClass} (h : parseWithin limit pattern = .ok t)
    (hmark : t.spelledAsMark = false) :
    NoMoreGroups (t.toPattern CharClass.toPattern).toList pattern.toList := by
  obtain ⟨u, hpattern, hu⟩ := parseWithin_eq_ok_iff.mp h
  have htext : t.toPattern CharClass.toPattern =
      t.spelling CharClass.toPattern := by
    rw [toPattern_eq_grouped, hmark]
    rfl
  rcases hpattern.mark_or_regex with rfl | rfl | hregex
  · cases hu
    exact noMoreGroups_of_count_eq_zero
      (htext ▸ count_spelling (fun s hs => nomatch hs)) _
  · cases hu
    exact noMoreGroups_of_count_eq_zero
      (htext ▸ count_spelling (fun s hs => nomatch hs)) _
  · exact Grammar.noMoreGroups_of_regex hregex hu hmark

theorem parseWithin_toPattern {limit : UInt32} {t : Tree CharClass}
    (h : t.Expressible limit.toNat) (hcanonical : ∀ s ∈ t.leaves, s.Canonical) :
    parseWithin limit (t.toPattern CharClass.toPattern) = .ok t := by
  obtain ⟨u, hu, hregex⟩ := Grammar.exists_regex h hcanonical
  obtain ⟨hword, hset⟩ := Grammar.toPattern_ne_mark hregex hu
  exact parseWithin_eq_ok_iff.mpr ⟨u, .regex hword hset hregex, hu⟩

/-- A tree that was read is read again from its printed text, under the limit it
was read under. -/
theorem parseWithin_toPattern_of_parse {limit : UInt32} {pattern : String}
    {t : Tree CharClass} (h : parseWithin limit pattern = .ok t)
    (hmark : t.spelledAsMark = false) :
    parseWithin limit (t.toPattern CharClass.toPattern) = .ok t := by
  obtain ⟨u, hpattern, hu⟩ := parseWithin_eq_ok_iff.mp h
  rcases hpattern.mark_or_regex with rfl | rfl | hregex
  · cases hu
    refine parseWithin_eq_ok_iff.mpr ⟨.emptyWord, ?_, rfl⟩
    rw [toPattern_eq_grouped]
    exact .emptyWord
  · cases hu
    refine parseWithin_eq_ok_iff.mpr ⟨.emptySet, ?_, rfl⟩
    rw [toPattern_eq_grouped]
    exact .emptySet
  · have hdepth := Grammar.groupDepth_of_regex hregex
    rw [← groupDepth_map CharClass.ofAtom, hu] at hdepth
    have hshallow : t.neededGroups ≤ limit.toNat := by
      rw [neededGroups, hmark]
      exact hdepth
    exact parseWithin_toPattern
      { Grammar.expressible_of_text hregex hu with shallow := hshallow }
      (Grammar.canonical_of_map hu)

theorem spelledAsMark_iff {t : Tree CharClass} :
    t.spelledAsMark = true ↔
      ∃ c, (c = emptyWordMark ∨ c = emptySetMark) ∧
        t = .literal (.single c) := by
  constructor
  · intro h
    cases t with
    | literal s =>
        rw [spelledAsMark, Bool.or_eq_true, beq_iff_eq, beq_iff_eq] at h
        rcases h with rfl | rfl
        · exact ⟨_, Or.inl rfl, rfl⟩
        · exact ⟨_, Or.inr rfl, rfl⟩
    | _ => cases h
  · rintro ⟨c, rfl | rfl, rfl⟩
    · rw [spelledAsMark, BEq.rfl, Bool.true_or]
    · rw [spelledAsMark, BEq.rfl, Bool.or_true]

/-- A literal mark is read from its text exactly if a group may be open. -/
theorem parseWithin_toPattern_literal_mark {limit : UInt32} {t : Tree CharClass}
    (hmark : t.spelledAsMark = true) :
    parseWithin limit (t.toPattern CharClass.toPattern) = .ok t ↔
      1 ≤ limit.toNat := by
  obtain ⟨c, hc, rfl⟩ := spelledAsMark_iff.mp hmark
  have hneeded : (literal (CharClass.single c)).neededGroups = 1 := by
    rw [neededGroups, hmark]
    rfl
  have hlit : PatternSyntax.isLiteral c = true := by
    rcases hc with rfl | rfl <;> decide
  constructor
  · intro h
    obtain ⟨u, hpattern, hu⟩ := parseWithin_eq_ok_iff.mp h
    rcases hpattern.mark_or_regex with rfl | rfl | hregex
    · cases hu
    · cases hu
    · exact hneeded ▸ (Grammar.expressible_of_regex hregex hu).shallow
  · intro hroom
    refine parseWithin_toPattern ⟨rfl, ?_, hneeded ▸ hroom⟩ ?_
    · exact List.forall_mem_singleton.mpr (CharClass.spellable_single hlit)
    · exact List.forall_mem_singleton.mpr (CharClass.canonical_single c)

/-- The class of one character has a text without a group, whatever the
character. -/
theorem parseWithin_bracketed {limit : UInt32} {pattern : String} {c : Char}
    (hc : PatternSyntax.isLiteral c = true)
    (hpattern : pattern.toList = ['[', c, ']']) :
    parseWithin limit pattern = .ok (.literal (.single c)) := by
  let b : Bracket := ⟨false, [.single c], List.cons_ne_nil _ _⟩
  have hbracket : Grammar.IsBracket ['[', c, ']'] b :=
    .plain (.single hc (by simp) .nil)
  have hranges : mergeRanges [⟨c, c⟩] = [⟨c, c⟩] :=
    mergeRanges_of_perm (.refl _) (CharClass.canonical_single c)
  have hsymbol : CharClass.ofAtom (.bracket b) = .single c :=
    congrArg (CharClass.mk false) hranges
  refine parseWithin_eq_ok_iff.mpr
    ⟨literal (.bracket b), ?_, congrArg literal hsymbol⟩
  rw [hpattern]
  exact .regex (by simp) (by simp) (.last (.last (.once (.bracket hbracket))))

end Tree

/-- Of all patterns of a tree the printed one has the fewest groups, and nests
them the least; so it is read under every limit under which one of them is. A
literal that is spelled like a mark is printed in one group, and is read again
if there may be one. -/
theorem toPattern_fewest_groups {limit : UInt32} {pattern : String}
    {t : Tree CharClass} (h : parseWithin limit pattern = .ok t) :
    let text := t.toPattern CharClass.toPattern
    (t.spelledAsMark = false →
      NoMoreGroups text.toList pattern.toList ∧
      (∀ (limit' : UInt32) (pattern' : String),
        (∃ t', parseWithin limit' pattern' = .ok t' ∧ (t' == t) = true) →
          NoMoreGroups text.toList pattern'.toList) ∧
      ∃ t', parseWithin limit text = .ok t' ∧ (t' == t) = true) ∧
    (t.spelledAsMark = true →
      (∃ c, (c = emptyWordMark ∨ c = emptySetMark) ∧ t = .literal (.single c) ∧
        text = "(" ++ String.singleton c ++ ")") ∧
      ((∃ t', parseWithin limit text = .ok t' ∧ (t' == t) = true) ↔
        1 ≤ limit.toNat)) := by
  intro text
  constructor
  · intro hmark
    refine ⟨Tree.noMoreGroups_of_parse h hmark, ?_, t,
      Tree.parseWithin_toPattern_of_parse h hmark, BEq.rfl⟩
    rintro limit' pattern' ⟨t', hparse, hequal⟩
    rw [eq_of_beq hequal] at hparse
    exact Tree.noMoreGroups_of_parse hparse hmark
  · intro hmark
    constructor
    · obtain ⟨c, hc, rfl⟩ := Tree.spelledAsMark_iff.mp hmark
      refine ⟨c, hc, rfl, ?_⟩
      show (Tree.literal (CharClass.single c)).toPattern CharClass.toPattern = _
      rw [Tree.toPattern_eq_grouped, hmark, Tree.spelling,
        CharClass.toPattern_eq_singleton_iff.mpr rfl]
      rfl
    · rw [← Tree.parseWithin_toPattern_literal_mark hmark]
      constructor
      · rintro ⟨t', hparse, hequal⟩
        rw [eq_of_beq hequal] at hparse
        exact hparse
      · intro hparse
        exact ⟨t, hparse, BEq.rfl⟩

/-- A pattern with groups to spare, and a literal mark that has a text without
one. -/
theorem toPattern_fewest_groups_of_regrouped :
    let t : Tree CharClass :=
      .concat (.alt (.literal (.single 'a')) (.literal (.single 'b')))
        (.star (.literal (.single 'c')))
    let mark : Tree CharClass := .literal (.single 'ε')
    (parseWithin 2 "((a)|b)((c))*" = .ok t ∧ t.spelledAsMark = false ∧
      t.toPattern CharClass.toPattern = "(a|b)c*" ∧
      ∀ (limit : UInt32) (pattern : String),
        (∃ t', parseWithin limit pattern = .ok t' ∧ (t' == t) = true) →
          NoMoreGroups "(a|b)c*".toList pattern.toList) ∧
    (parseWithin 0 "[ε]" = .ok mark ∧ mark.spelledAsMark = true ∧
      mark.toPattern CharClass.toPattern = "(ε)" ∧
      ¬ ∃ t', parseWithin 0 "(ε)" = .ok t' ∧ (t' == mark) = true) := by
  intro t mark
  have hchar : ∀ {n : Nat} {c : Char}, isLiteral c = true →
      Grammar.Regex n [c] (.literal (.char c)) := fun hc =>
    .last (.last (.once (.literal hc)))
  have hfirst : Grammar.Base 2
      ('(' :: ('(' :: (['a'] ++ [')']) ++ '|' :: ['b'] ++ [')'])) _ :=
    .group (.more (.last (.once (.group (hchar (by decide)))))
      (hchar (by decide)))
  have hsecond : Grammar.Base 2 ('(' :: ('(' :: (['c'] ++ [')']) ++ [')'])) _ :=
    .group (.last (.last (.once (.group (hchar (by decide))))))
  have hparse : parseWithin 2 "((a)|b)((c))*" = .ok t :=
    parseWithin_eq_ok_iff.mpr
      ⟨_, .regex (by decide) (by decide)
        (.last (.more (.once hfirst) (.last (.star hsecond)))), rfl⟩
  have htext : t.toPattern CharClass.toPattern = "(a|b)c*" := by cbv
  have hmark : parseWithin 0 "[ε]" = .ok mark :=
    Tree.parseWithin_bracketed (by decide) (by decide)
  have hmarkText : mark.toPattern CharClass.toPattern = "(ε)" := by cbv
  obtain ⟨-, hfewest, -⟩ := (toPattern_fewest_groups hparse).1 rfl
  have hmarked : mark.spelledAsMark = true := by decide
  obtain ⟨-, hlost⟩ := (toPattern_fewest_groups hmark).2 hmarked
  rw [htext] at hfewest
  rw [hmarkText] at hlost
  exact ⟨⟨hparse, rfl, htext, hfewest⟩, hmark, hmarked, hmarkText,
    fun h => absurd (hlost.mp h) (by decide)⟩

end PatternSyntax
