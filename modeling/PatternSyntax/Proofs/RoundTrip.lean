import PatternSyntax.Proofs.ClassText
import PatternSyntax.Proofs.Exactness
import PatternSyntax.Proofs.TreeText
import PatternSyntax.Tree.Equality

/-!
# Reading back what was printed

A tree of character classes can be printed whatever it is, but not every text
that comes out denotes the tree. The marks mean something only by themselves,
some classes have no spelling, and the groups that printing needs may be more
than the reader allows. Nothing else can go wrong. What is left is then the
right tree, not just some tree.

That the other trees are lost needs no look at their texts. Whatever is read was
derived, and a derived tree has none of these faults. There is one exception, a
literal that is spelled like a mark. It is the only tree that is printed with
more groups than its depth says.
-/

namespace PatternSyntax

namespace Tree

variable {σ : Type}

/-! ## Equality of trees over symbols with a lawful equality -/

theorem Same.eq [BEq σ] [LawfulBEq σ] {a b : Tree σ} (h : Same a b) :
    a = b := by
  induction h with
  | emptyWord => rfl
  | emptySet => rfl
  | literal h => rw [eq_of_beq h]
  | concat _ _ h₁ h₂ => rw [h₁, h₂]
  | alt _ _ h₁ h₂ => rw [h₁, h₂]
  | star _ h => rw [h]

theorem Same.refl [BEq σ] [ReflBEq σ] (a : Tree σ) : Same a a := by
  induction a with
  | emptyWord => exact .emptyWord
  | emptySet => exact .emptySet
  | literal s => exact .literal BEq.rfl
  | concat _ _ h₁ h₂ => exact .concat h₁ h₂
  | alt _ _ h₁ h₂ => exact .alt h₁ h₂
  | star _ h => exact .star h

instance [BEq σ] [LawfulBEq σ] : LawfulBEq (Tree σ) where
  eq_of_beq h := ((beq_iff_same _ _).mp h).eq
  rfl := (beq_iff_same _ _).mpr (Same.refl _)

/-! ## Trees that have a pattern -/

/-- The whole tree is a literal with the text of a mark. -/
def spelledAsMark : Tree CharClass → Bool
  | literal s => s == .single emptyWordMark || s == .single emptySetMark
  | _ => false

/-- The greatest number of groups that are open at once in the pattern. -/
def neededGroups (t : Tree CharClass) : Nat :=
  t.groupDepth + t.spelledAsMark.toNat

/-- The tree has a pattern that is read back as the tree with so many groups
open at once. -/
structure Expressible (limit : Nat) (t : Tree CharClass) : Prop where
  markFree : t.markFree = true
  spellable : ∀ s ∈ t.leaves, s.Spellable
  shallow : t.neededGroups ≤ limit

theorem hasMarkText_toPattern (t : Tree CharClass) :
    t.hasMarkText CharClass.toPattern = t.spelledAsMark := by
  cases t with
  | literal s =>
      rw [Bool.eq_iff_iff, hasMarkText, decide_eq_true_eq, emptyWordText,
        emptySetText, CharClass.toPattern_eq_singleton_iff,
        CharClass.toPattern_eq_singleton_iff, spelledAsMark, Bool.or_eq_true,
        beq_iff_eq, beq_iff_eq]
  | _ => rfl

theorem toPattern_eq_grouped (t : Tree CharClass) :
    t.toPattern CharClass.toPattern =
      grouped t.spelledAsMark (t.spelling CharClass.toPattern) := by
  rw [toPattern_eq_spelling, hasMarkText_toPattern]

end Tree

namespace Grammar

/-! ## Texts that begin with a group -/

theorem pos_of_base_open {n : Nat} {s : List Char} {t : Tree Atom}
    (h : Base n s t) (hopen : s.head? = some '(') : 0 < n := by
  cases h with
  | literal hc =>
      cases hopen
      exact absurd hc (by decide)
  | group _ => exact Nat.succ_pos _
  | bracket hb =>
      cases hb with
      | plain _ => cases hopen
      | negated _ => cases hopen

theorem pos_of_factor_open {n : Nat} {s : List Char} {t : Tree Atom}
    (h : Factor n s t) (hopen : s.head? = some '(') : 0 < n := by
  cases h with
  | once hb => exact pos_of_base_open hb hopen
  | star hb =>
      rw [(beginsTerm_of_base hb).head?_append] at hopen
      exact pos_of_base_open hb hopen

theorem pos_of_branch_open {n : Nat} {s : List Char} {t : Tree Atom}
    (h : Branch n s t) (hopen : s.head? = some '(') : 0 < n := by
  cases h with
  | last hf => exact pos_of_factor_open hf hopen
  | more hf _ =>
      rw [(beginsTerm_of_factor hf).head?_append] at hopen
      exact pos_of_factor_open hf hopen

/-- A text that begins with a group needs one. -/
theorem pos_of_regex_open {n : Nat} {s : List Char} {t : Tree Atom}
    (h : Regex n s t) (hopen : s.head? = some '(') : 0 < n := by
  cases h with
  | last hb => exact pos_of_branch_open hb hopen
  | more hb _ =>
      rw [(beginsTerm_of_branch hb).head?_append] at hopen
      exact pos_of_branch_open hb hopen

/-! ## Texts of one character -/

theorem literal_of_base {n : Nat} {s : List Char} {t : Tree Atom}
    (h : Base n s t) (hone : s.length = 1) : t.isLiteral = true := by
  cases h with
  | literal _ => rfl
  | group _ => simp at hone
  | bracket _ => rfl

theorem literal_of_factor {n : Nat} {s : List Char} {t : Tree Atom}
    (h : Factor n s t) (hone : s.length = 1) : t.isLiteral = true := by
  cases h with
  | once hb => exact literal_of_base hb hone
  | star hb =>
      have hpos := (beginsTerm_of_base hb).length_pos
      rw [List.length_append, List.length_singleton] at hone
      omega

theorem literal_of_branch {n : Nat} {s : List Char} {t : Tree Atom}
    (h : Branch n s t) (hone : s.length = 1) : t.isLiteral = true := by
  cases h with
  | last hf => exact literal_of_factor hf hone
  | more hf hrest =>
      have hpos := (beginsTerm_of_factor hf).length_pos
      have hrest := (beginsTerm_of_branch hrest).length_pos
      rw [List.length_append] at hone
      omega

/-- A text of one character has no operators. -/
theorem literal_of_regex {n : Nat} {s : List Char} {t : Tree Atom}
    (h : Regex n s t) (hone : s.length = 1) : t.isLiteral = true := by
  cases h with
  | last hb => exact literal_of_branch hb hone
  | more hb _ =>
      have hpos := (beginsTerm_of_branch hb).length_pos
      rw [List.length_append, List.length_cons] at hone
      omega

/-! ## The printed text as a pattern -/

theorem Pattern.mark_or_regex {n : Nat} {s : List Char} {t : Tree Atom}
    (h : Pattern n s t) :
    t = .emptyWord ∨ t = .emptySet ∨ Regex n s t := by
  cases h with
  | emptyWord => exact Or.inl rfl
  | emptySet => exact Or.inr (Or.inl rfl)
  | regex _ _ hs => exact Or.inr (Or.inr hs)

/-- Every leaf of a derived tree describes a spellable class. -/
theorem spellable_of_regex {n : Nat} {s : List Char} {u : Tree Atom}
    (h : Regex n s u) :
    ∀ a ∈ u.leaves, (CharClass.ofAtom a).Spellable := by
  intro a ha
  obtain ⟨text, hbase⟩ := leaves_of_regex h a ha
  -- No group is open, so the leaf is spelled out.
  cases hbase with
  | literal hc => exact CharClass.spellable_single hc
  | bracket hb => exact CharClass.spellable_ofBracket hb

/-- Whatever tree the printed text derives, printing that tree needs no more
than the text had. -/
theorem expressible_of_regex {n : Nat} {u : Tree Atom} {t : Tree CharClass}
    (h : Regex n (t.toPattern CharClass.toPattern).toList u)
    (hu : u.map CharClass.ofAtom = t) : t.Expressible n := by
  subst hu
  refine ⟨?_, ?_, ?_⟩
  · rw [Tree.markFree_map]
    exact markFree_of_regex h
  · intro s hs
    rw [Tree.leaves_map] at hs
    obtain ⟨a, ha, rfl⟩ := List.mem_map.mp hs
    exact spellable_of_regex h a ha
  · have hdepth := groupDepth_of_regex h
    rw [Tree.neededGroups, Tree.groupDepth_map]
    by_cases hmark : (u.map CharClass.ofAtom).spelledAsMark = true
    · rw [Tree.toPattern_eq_grouped, hmark] at h
      have hpos := pos_of_regex_open h (by simp [Tree.grouped])
      have hzero : u.groupDepth = 0 := by
        cases u with
        | literal a => rfl
        | _ => cases hmark
      rw [hmark, hzero]
      exact hpos
    · rw [Bool.eq_false_iff.mpr hmark]
      exact hdepth

/-- The text of an expressible tree derives it. -/
theorem exists_regex {n : Nat} {t : Tree CharClass} (h : t.Expressible n)
    (hcanonical : ∀ s ∈ t.leaves, s.Canonical) :
    ∃ u, u.map CharClass.ofAtom = t ∧
      Regex n (t.toPattern CharClass.toPattern).toList u := by
  obtain ⟨hmarks, hspellable, hshallow⟩ := h
  have hleaves : ∀ s ∈ t.leaves, ∃ a, CharClass.ofAtom a = s ∧
      ∀ n, Base n s.toPattern.toList (.literal a) := fun s hs =>
    CharClass.exists_atom (hcanonical s hs) (hspellable s hs)
  obtain ⟨u, hu, hs⟩ :=
    exists_operand (exists_derivation hmarks hleaves) hshallow
  rw [← Tree.toPattern_eq_grouped] at hs
  refine ⟨u, hu, ?_⟩
  rcases hs with hs | ⟨-, hs⟩
  · exact .last (.last (.once hs))
  · exact hs.regex

/-- The text of a tree that has no marks is not one of them either. -/
theorem toPattern_ne_mark {n : Nat} {u : Tree Atom} {t : Tree CharClass}
    (h : Regex n (t.toPattern CharClass.toPattern).toList u)
    (hu : u.map CharClass.ofAtom = t) :
    (t.toPattern CharClass.toPattern).toList ≠ [emptyWordMark] ∧
      (t.toPattern CharClass.toPattern).toList ≠ [emptySetMark] := by
  have hne : ∀ c, (c = emptyWordMark ∨ c = emptySetMark) →
      (t.toPattern CharClass.toPattern).toList ≠ [c] := by
    intro c hc htext
    have hliteral := literal_of_regex h (by rw [htext]; rfl)
    rw [← Tree.isLiteral_map CharClass.ofAtom, hu] at hliteral
    rw [Tree.toPattern_eq_grouped] at htext
    cases t with
    | literal s =>
        by_cases hmark : (Tree.literal s).spelledAsMark = true
        · rw [hmark] at htext
          have hlength := congrArg List.length htext
          simp [Tree.grouped] at hlength
        · rw [Bool.eq_false_iff.mpr hmark] at htext
          have hs : s.toPattern = String.singleton c :=
            String.toList_injective
              (htext.trans (String.toList_singleton c).symm)
          rw [CharClass.toPattern_eq_singleton_iff] at hs
          refine hmark ?_
          rw [hs, Tree.spelledAsMark]
          rcases hc with rfl | rfl
          · rw [BEq.rfl, Bool.true_or]
          · rw [BEq.rfl, Bool.or_true]
    | _ => cases hliteral
  exact ⟨hne _ (Or.inl rfl), hne _ (Or.inr rfl)⟩

end Grammar

/-! ## Printing and parsing -/

theorem parseWithin_eq_ok_iff {limit : UInt32} {pattern : String}
    {t : Tree CharClass} :
    parseWithin limit pattern = .ok t ↔
      ∃ u, Grammar.Pattern limit.toNat pattern.toList u ∧
        u.map CharClass.ofAtom = t :=
  Parser.parse_pure_eq_ok_iff

/-- What was printed is read back as the same tree exactly if the tree is a mark
or an expressible one. -/
theorem parseWithin_toPattern_iff (limit : UInt32) (t : Tree CharClass)
    (hsymbols : ∀ s ∈ t.leaves, ∃ a, CharClass.ofAtom a = s) :
    (∃ t', parseWithin limit (t.toPattern CharClass.toPattern) = .ok t' ∧
      (t' == t) = true) ↔
      t = .emptyWord ∨ t = .emptySet ∨ t.Expressible limit.toNat := by
  have hcanonical : ∀ s ∈ t.leaves, s.Canonical := by
    intro s hs
    obtain ⟨a, rfl⟩ := hsymbols s hs
    exact CharClass.canonical_ofAtom a
  constructor
  · rintro ⟨t', hparse, hequal⟩
    rw [eq_of_beq hequal, parseWithin_eq_ok_iff] at hparse
    obtain ⟨u, hpattern, rfl⟩ := hparse
    rcases hpattern.mark_or_regex with rfl | rfl | hregex
    · exact Or.inl rfl
    · exact Or.inr (Or.inl rfl)
    · exact Or.inr (Or.inr (Grammar.expressible_of_regex hregex rfl))
  · intro h
    refine ⟨t, ?_, BEq.rfl⟩
    rw [parseWithin_eq_ok_iff]
    rcases h with rfl | rfl | h
    · refine ⟨.emptyWord, ?_, rfl⟩
      rw [Tree.toPattern_eq_grouped]
      exact .emptyWord
    · refine ⟨.emptySet, ?_, rfl⟩
      rw [Tree.toPattern_eq_grouped]
      exact .emptySet
    · obtain ⟨u, hu, hregex⟩ := Grammar.exists_regex h hcanonical
      obtain ⟨hword, hset⟩ := Grammar.toPattern_ne_mark hregex hu
      exact ⟨u, .regex hword hset hregex, hu⟩

/-- A class with a dash among its bounds, a literal mark and a repeated
concatenation, in a pattern that opens one group at a time. -/
def dashedTree : Tree CharClass :=
  .concat (.alt (.literal ⟨true, [⟨'+', '+'⟩, ⟨'-', '/'⟩]⟩)
    (.literal (.single 'ε')))
    (.star (.concat (.literal (.single 'a')) (.literal (.single 'b'))))

theorem parseWithin_toPattern_dashedTree :
    (∀ s ∈ dashedTree.leaves, ∃ a, CharClass.ofAtom a = s) ∧
      ∃ t', parseWithin 1 (dashedTree.toPattern CharClass.toPattern) = .ok t' ∧
        (t' == dashedTree) = true := by
  have hsymbols : ∀ s ∈ dashedTree.leaves, ∃ a, CharClass.ofAtom a = s := by
    intro s hs
    simp only [dashedTree, Tree.leaves, List.mem_append,
      List.mem_singleton] at hs
    rcases hs with (rfl | rfl) | rfl | rfl
    · have hmerged : mergeRanges [⟨'-', '/'⟩, ⟨'+', '+'⟩] =
          [⟨'+', '+'⟩, ⟨'-', '/'⟩] :=
        mergeRanges_of_perm (.swap _ _ [])
          ⟨by decide, by simp [CharRange.Before]⟩
      exact ⟨.bracket ⟨true, [.range '-' '/', .single '+'], by decide⟩,
        congrArg (CharClass.mk true) hmerged⟩
    · exact ⟨.char 'ε', rfl⟩
    · exact ⟨.char 'a', rfl⟩
    · exact ⟨.char 'b', rfl⟩
  refine ⟨hsymbols, (parseWithin_toPattern_iff 1 dashedTree hsymbols).mpr ?_⟩
  exact Or.inr (Or.inr ⟨by decide, by decide, by decide⟩)

end PatternSyntax
