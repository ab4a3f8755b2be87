import PatternSyntax.Proofs.LeafSpelling
import PatternSyntax.Proofs.Naturality
import PatternSyntax.Proofs.TreeText
import PatternSyntax.Tree.Measure

/-!
# Where the nodes of a tree come from

A pattern pays for the nodes of its tree. A bar makes an alternation and a star
a star, one for one. Concatenations have no character of their own, and yet
their number is fixed, because all leaves have to come together in one root. So
the size of the tree is known from its leaves and its stars, and the tree cannot
outgrow the pattern.

Two inductions share the work. How the kinds of nodes balance is a fact about
any tree, wherever it came from: a node with two operands makes one tree of two.
Which characters stand behind the nodes is an induction over the derivation, and
there it matters that brackets hide no operator.

The tree of a parse has symbols of any type, the derived one has atoms. They are
of one shape, and no count looks at a symbol.
-/

namespace PatternSyntax

namespace Tree

variable {σ ρ : Type}

def isStar : Tree σ → Bool
  | star _ => true
  | _ => false

/-- A node without operands. -/
def isLeaf : Tree σ → Bool
  | emptyWord => true
  | emptySet => true
  | literal _ => true
  | _ => false

/-- The number of nodes of one kind. -/
def tally (kind : Tree σ → Bool) : Tree σ → Nat
  | emptyWord => (kind emptyWord).toNat
  | emptySet => (kind emptySet).toNat
  | literal s => (kind (literal s)).toNat
  | concat l r => l.tally kind + r.tally kind + (kind (concat l r)).toNat
  | alt l r => l.tally kind + r.tally kind + (kind (alt l r)).toNat
  | star x => x.tally kind + (kind (star x)).toNat

/-! ## The kinds of nodes balance -/

/-- Each node with two operands joins two trees, until one is left. -/
theorem tally_isLeaf (t : Tree σ) :
    t.tally isLeaf = t.tally isConcat + t.tally isAlt + 1 := by
  induction t with
  | emptyWord => rfl
  | emptySet => rfl
  | literal s => rfl
  | concat l r hl hr =>
      simp only [tally, isLeaf, isConcat, isAlt, Bool.toNat_true,
        Bool.toNat_false]
      omega
  | alt l r hl hr =>
      simp only [tally, isLeaf, isConcat, isAlt, Bool.toNat_true,
        Bool.toNat_false]
      omega
  | star x hx =>
      simp only [tally, isLeaf, isConcat, isAlt, Bool.toNat_false]
      omega

/-- Every node is a leaf, has two operands, or is a star. -/
theorem nodes_eq_tally (t : Tree σ) :
    t.nodes = t.tally isLeaf + (t.tally isConcat + t.tally isAlt) +
      t.tally isStar := by
  induction t with
  | emptyWord => rfl
  | emptySet => rfl
  | literal s => rfl
  | concat l r hl hr =>
      simp only [nodes, tally, isLeaf, isConcat, isAlt, isStar, Bool.toNat_true,
        Bool.toNat_false]
      omega
  | alt l r hl hr =>
      simp only [nodes, tally, isLeaf, isConcat, isAlt, isStar, Bool.toNat_true,
        Bool.toNat_false]
      omega
  | star x hx =>
      simp only [nodes, tally, isLeaf, isConcat, isAlt, isStar, Bool.toNat_true,
        Bool.toNat_false]
      omega

/-- A level below a node with two operands has a leaf beside it, and the other
levels are stars. -/
theorem height_le_tally (t : Tree σ) :
    t.height ≤ t.tally isLeaf + t.tally isStar := by
  induction t with
  | emptyWord => exact Nat.le_refl 1
  | emptySet => exact Nat.le_refl 1
  | literal s => exact Nat.le_refl 1
  | concat l r hl hr =>
      -- The way down leads into one operand, and a leaf of the other makes up
      -- for the node.
      have hleft := l.tally_isLeaf
      have hright := r.tally_isLeaf
      simp only [height, tally, isLeaf, isStar, Bool.toNat_false]
      omega
  | alt l r hl hr =>
      have hleft := l.tally_isLeaf
      have hright := r.tally_isLeaf
      simp only [height, tally, isLeaf, isStar, Bool.toNat_false]
      omega
  | star x hx =>
      simp only [height, tally, isLeaf, isStar, Bool.toNat_true,
        Bool.toNat_false]
      omega

/-- Without marks all leaves carry symbols. -/
theorem tally_isLeaf_eq_length {t : Tree σ} (h : t.markFree = true) :
    t.tally isLeaf = t.leaves.length := by
  induction t with
  | emptyWord => cases h
  | emptySet => cases h
  | literal s => rfl
  | concat l r hl hr =>
      rw [markFree, Bool.and_eq_true] at h
      rw [tally, hl h.1, hr h.2, leaves, List.length_append]
      rfl
  | alt l r hl hr =>
      rw [markFree, Bool.and_eq_true] at h
      rw [tally, hl h.1, hr h.2, leaves, List.length_append]
      rfl
  | star x hx =>
      rw [tally, hx h]
      rfl

/-! ## Trees of one shape -/

/-- A kind of node that does not look at symbols is as frequent in a relabelled
tree. -/
theorem tally_map {f : σ → ρ} {kind : Tree σ → Bool} {kind' : Tree ρ → Bool}
    (h : ∀ t : Tree σ, kind' (t.map f) = kind t) (t : Tree σ) :
    (t.map f).tally kind' = t.tally kind := by
  induction t with
  | emptyWord => exact congrArg Bool.toNat (h emptyWord)
  | emptySet => exact congrArg Bool.toNat (h emptySet)
  | literal s => exact congrArg Bool.toNat (h (literal s))
  | concat l r hl hr =>
      have hroot := h (concat l r)
      rw [map] at hroot ⊢
      rw [tally, tally, hl, hr, hroot]
  | alt l r hl hr =>
      have hroot := h (alt l r)
      rw [map] at hroot ⊢
      rw [tally, tally, hl, hr, hroot]
  | star x hx =>
      have hroot := h (star x)
      rw [map] at hroot ⊢
      rw [tally, tally, hx, hroot]

theorem isStar_map (f : σ → ρ) (t : Tree σ) : (t.map f).isStar = t.isStar := by
  cases t <;> rfl

theorem isLeaf_map (f : σ → ρ) (t : Tree σ) : (t.map f).isLeaf = t.isLeaf := by
  cases t <;> rfl

end Tree

namespace Grammar

/-! ## Nodes and characters -/

/-- The operators of the text are the nodes of the tree, and no character counts
for both a leaf and a star. -/
structure PaysFor {σ : Type} (s : List Char) (t : Tree σ) : Prop where
  bars : t.tally Tree.isAlt = s.count '|'
  stars : t.tally Tree.isStar = s.count '*'
  room : t.tally Tree.isLeaf + s.count '*' ≤ s.length

section Productions

variable {σ ρ : Type} {s rest : List Char} {t u : Tree σ}

theorem PaysFor.literal {a : σ} (hbars : s.count '|' = 0)
    (hstars : s.count '*' = 0) (hs : s ≠ []) : PaysFor s (.literal a) where
  bars := hbars.symm
  stars := hstars.symm
  room := by
    rw [hstars]
    exact List.length_pos_iff.mpr hs

theorem PaysFor.concat (hs : PaysFor s t) (hrest : PaysFor rest u) :
    PaysFor (s ++ rest) (.concat t u) where
  bars := by
    rw [List.count_append, ← hs.bars, ← hrest.bars]
    rfl
  stars := by
    rw [List.count_append, ← hs.stars, ← hrest.stars]
    rfl
  room := by
    have hfirst := hs.room
    have hothers := hrest.room
    simp only [Tree.tally, Tree.isLeaf, Bool.toNat_false, List.count_append,
      List.length_append]
    omega

theorem PaysFor.alt (hs : PaysFor s t) (hrest : PaysFor rest u) :
    PaysFor (s ++ '|' :: rest) (.alt t u) where
  bars := by
    rw [List.count_append, List.count_cons_self, ← hs.bars, ← hrest.bars]
    rfl
  stars := by
    rw [List.count_append, List.count_cons_of_ne (by decide), ← hs.stars,
      ← hrest.stars]
    rfl
  room := by
    have hfirst := hs.room
    have hothers := hrest.room
    have hbar : ('|' :: rest).count '*' = rest.count '*' :=
      List.count_cons_of_ne (by decide)
    simp only [Tree.tally, Tree.isLeaf, Bool.toNat_false, List.count_append,
      hbar, List.length_append, List.length_cons]
    omega

theorem PaysFor.star (hs : PaysFor s t) : PaysFor (s ++ ['*']) (.star t) where
  bars := by
    rw [List.count_append, ← hs.bars]
    rfl
  stars := by
    rw [List.count_append, ← hs.stars]
    rfl
  room := by
    have hinner := hs.room
    simp only [Tree.tally, Tree.isLeaf, Bool.toNat_false, List.count_append,
      List.count_singleton_self, List.length_append, List.length_singleton]
    omega

theorem PaysFor.group (hs : PaysFor s t) : PaysFor ('(' :: (s ++ [')'])) t where
  bars := by
    rw [List.count_cons_of_ne (by decide), List.count_append, ← hs.bars]
    rfl
  stars := by
    rw [List.count_cons_of_ne (by decide), List.count_append, ← hs.stars]
    rfl
  room := by
    have hinner := hs.room
    have hstars : ('(' :: (s ++ [')'])).count '*' = s.count '*' := by
      rw [List.count_cons_of_ne (by decide), List.count_append]
      rfl
    rw [hstars, List.length_cons, List.length_append]
    omega

/-- Which symbols the leaves carry is not counted. -/
theorem PaysFor.of_shape {v : Tree ρ} (hs : PaysFor s t)
    (h : v.shape = t.shape) :
    PaysFor s v := by
  -- A kind that does not look at symbols can be told from the shape already.
  have hcount {kind : Tree σ → Bool} {kind' : Tree ρ → Bool}
      {blank : Tree Unit → Bool} (hkind : ∀ x : Tree σ, blank x.shape = kind x)
      (hkind' : ∀ x : Tree ρ, blank x.shape = kind' x) :
      v.tally kind' = t.tally kind := by
    rw [← Tree.tally_map hkind t, ← Tree.tally_map hkind' v]
    exact congrArg (Tree.tally blank) h
  have hstar : v.tally Tree.isStar = t.tally Tree.isStar :=
    hcount (Tree.isStar_map _) (Tree.isStar_map _)
  have halt : v.tally Tree.isAlt = t.tally Tree.isAlt :=
    hcount (Tree.isAlt_map _) (Tree.isAlt_map _)
  have hleaf : v.tally Tree.isLeaf = t.tally Tree.isLeaf :=
    hcount (Tree.isLeaf_map _) (Tree.isLeaf_map _)
  exact ⟨halt.trans hs.bars, hstar.trans hs.stars, hleaf ▸ hs.room⟩

end Productions

mutual

theorem paysFor_of_regex {n : Nat} {s : List Char} {t : Tree Atom} :
    Regex n s t → PaysFor s t
  | .last h => paysFor_of_branch h
  | .more h hrest => (paysFor_of_branch h).alt (paysFor_of_regex hrest)

theorem paysFor_of_branch {n : Nat} {s : List Char} {t : Tree Atom} :
    Branch n s t → PaysFor s t
  | .last h => paysFor_of_factor h
  | .more h hrest => (paysFor_of_factor h).concat (paysFor_of_branch hrest)

theorem paysFor_of_factor {n : Nat} {s : List Char} {t : Tree Atom} :
    Factor n s t → PaysFor s t
  | .once h => paysFor_of_base h
  | .star h => (paysFor_of_base h).star

theorem paysFor_of_base {n : Nat} {s : List Char} {t : Tree Atom} :
    Base n s t → PaysFor s t
  | .literal (c := c) hc => by
      have hliterals : ∀ d ∈ [c], isLiteral d = true :=
        List.forall_mem_singleton.mpr hc
      exact .literal (count_literals hliterals (by decide))
        (count_literals hliterals (by decide)) (List.cons_ne_nil _ _)
  | .group h => (paysFor_of_regex h).group
  | .bracket hb => by
      obtain ⟨body, hbody⟩ := head_of_bracket hb
      exact .literal (count_bracket hb (by decide) (by decide))
        (count_bracket hb (by decide) (by decide))
        (hbody ▸ List.cons_ne_nil _ _)

end

end Grammar

namespace Parser

open Grammar

variable {τ σ : Type}

/-- The nodes of a tree that was read are accounted for by the operators of its
pattern and by its leaves, of which there are no more than the other
characters. -/
theorem nodes_accounted_for {p : Parser τ σ} {pattern : String} {made : τ}
    {t : Tree σ} (hword : pattern.toList ≠ [emptyWordMark])
    (hset : pattern.toList ≠ [emptySetMark])
    (h : (p.parse pattern made).1 = .ok t) :
    t.tally Tree.isStar = pattern.toList.count '*' ∧
      t.tally Tree.isAlt = pattern.toList.count '|' ∧
      t.tally Tree.isConcat + 1 + pattern.toList.count '|' = t.leaves.length ∧
      t.tally Tree.isLeaf = t.leaves.length ∧
      t.size + 1 = 2 * t.leaves.length + pattern.toList.count '*' ∧
      t.depth ≤ t.leaves.length + pattern.toList.count '*' ∧
      t.leaves.length + pattern.toList.count '*' ≤ pattern.toList.length ∧
      t.size + 1 ≤ 2 * pattern.toList.length := by
  obtain ⟨u, hpattern, hmake⟩ := parseList_sound (Prod.ext h rfl)
  have hregex := hpattern.regex_of_ne hword hset
  have hshape : t.shape = u.shape := by
    rw [← p.factory.shape_makeTree u made, hmake]
  have hmarks : t.markFree = true := by
    rw [← t.markFree_map fun _ => (), ← markFree_of_regex hregex,
      ← u.markFree_map fun _ => ()]
    exact congrArg Tree.markFree hshape
  obtain ⟨hbars, hstars, hroom⟩ := (paysFor_of_regex hregex).of_shape hshape
  have hleaves := Tree.tally_isLeaf_eq_length hmarks
  -- What is left is arithmetic on the counts.
  have hbalance := t.tally_isLeaf
  have hsize := t.size_eq_nodes.trans t.nodes_eq_tally
  have hdepth := t.depth_eq_height ▸ t.height_le_tally
  refine ⟨hstars, hbars, ?_, hleaves, ?_, ?_, ?_, ?_⟩
  all_goals omega

/-- With a star on a group inside of another, each level of the tree is a star
or has a leaf beside it. -/
theorem nodes_accounted_for_nested_stars :
    let c : Char → Tree Atom := fun c => .literal (.char c)
    let range : Bracket := ⟨false, [.range 'x' 'z'], by decide⟩
    let t : Tree Atom :=
      .concat (.star (.concat (.star (.alt (c 'a') (c 'b'))) (c 'c')))
        (.literal (.bracket range))
    ((⟨.recorder, 2⟩ : Parser (Array Atom) Atom).parse "((a|b)*c)*[x-z]"
      #[]).1 = .ok t ∧
      t.tally Tree.isStar = 2 ∧ t.tally Tree.isAlt = 1 ∧
      t.tally Tree.isConcat = 2 ∧ t.leaves.length = 4 ∧
      t.size = 9 ∧ t.depth ≤ 6 ∧
      t.size + 1 ≤ 2 * "((a|b)*c)*[x-z]".toList.length := by
  intro c range t
  have hchar {n : Nat} {d : Char} (hd : isLiteral d = true) :
      Base n [d] (c d) := .literal hd
  have hbracket : IsBracket ['[', 'x', '-', 'z', ']'] range :=
    .plain (.range (by decide) (by decide) (by decide) .nil)
  have hinner : Base 1 ('(' :: (['a'] ++ '|' :: ['b'] ++ [')'])) _ :=
    .group (.more (.last (.once (hchar (by decide))))
      (.last (.last (.once (hchar (by decide))))))
  have houter : Base 2 ('(' ::
      ('(' :: (['a'] ++ '|' :: ['b'] ++ [')']) ++ ['*'] ++ ['c'] ++ [')'])) _ :=
    .group (.last (.more (.star hinner) (.last (.once (hchar (by decide))))))
  have hparse :
      ((⟨.recorder, 2⟩ : Parser (Array Atom) Atom).parse "((a|b)*c)*[x-z]"
        #[]).1 = .ok t :=
    (parse_recorder_eq_ok_iff ..).mpr (.regex (by decide) (by decide)
      (.last (.more (.star houter) (.last (.once (.bracket hbracket))))))
  have hstarCount : "((a|b)*c)*[x-z]".toList.count '*' = 2 := by decide
  have hbarCount : "((a|b)*c)*[x-z]".toList.count '|' = 1 := by decide
  have hleaves : t.leaves.length = 4 := rfl
  obtain ⟨hstars, hbars, hconcats, -, hsize, hdepth, -, hbound⟩ :=
    nodes_accounted_for (by decide) (by decide) hparse
  rw [hstarCount] at hstars hsize hdepth
  rw [hbarCount] at hbars hconcats
  rw [hleaves] at hconcats hsize hdepth
  exact ⟨hparse, hstars, hbars, by omega, hleaves, by omega, hdepth, hbound⟩

end Parser

end PatternSyntax
