import PatternSyntax.Proofs.Naturality
import PatternSyntax.Proofs.RoundTrip
import PatternSyntax.Tree.Measure

/-!
# What is pending does not show

Whatever runs over a tree keeps a list of what is left to do, and takes it up in
the order in which it comes off the list. To a caller nothing of that is
visible. Each result is what recursion on the tree gives, and a list with more
than one entry stands for the results of its entries: their texts one after the
other, or whether they are all pairs of equal trees. It is this statement about
a whole list that carries the argument, as every round leaves a list of another
form.

For equality there is one thing more to it. The comparison stops at the first
difference and does not say which that was. Two trees differ exactly if they
branch differently or some leaf of the one carries another symbol than the leaf
of the other in its place.
-/

namespace PatternSyntax.Tree

variable {σ : Type}

/-! ## Texts -/

/-- What a piece of a pattern is written as. -/
def Piece.spelling (symbol : σ → String) : Piece σ → String
  | text s => s
  | tree t => t.spelling symbol

theorem emit_patternLayout (symbol : σ → String) (pending : List (Piece σ)) :
    (patternLayout symbol).emit pending "" =
      String.join (pending.map (Piece.spelling symbol)) := by
  induction pending with
  | nil => simp
  | cons piece rest ih =>
      rw [List.map_cons, String.join_cons, ← ih]
      cases piece with
      | text s => rw [Layout.emit_text_cons, Piece.spelling]
      | tree t =>
          rw [Layout.emit_tree_cons, render_patternLayout, Piece.spelling]

/-- All that is pending is written as by recursion, in its order and behind what
is written already. A whole tree is its spelling, in a group if that is a
literal mark. -/
theorem toPattern_is_recursive (symbol : σ → String) :
    (∀ (pending : List (Piece σ)) (written : String),
      (patternLayout symbol).emit pending written =
        written ++ String.join (pending.map (Piece.spelling symbol))) ∧
    (∀ t : Tree σ,
      t.toPattern symbol =
        grouped (t.hasMarkText symbol) (t.spelling symbol)) := by
  refine ⟨fun pending written => ?_, toPattern_eq_spelling symbol⟩
  rw [Layout.emit_written, emit_patternLayout]

/-! ## Measures -/

/-- The operands of the root, from left to right. -/
def children : Tree σ → List (Tree σ)
  | emptyWord => []
  | emptySet => []
  | literal _ => []
  | concat l r => [l, r]
  | alt l r => [l, r]
  | star x => [x]

theorem depth_eq_children (t : Tree σ) :
    t.depth = 1 + (t.children.map depth).foldr max 0 := by
  have hheight : (depth : Tree σ → Nat) = height := funext depth_eq_height
  rw [hheight]
  cases t with
  | emptyWord => rfl
  | emptySet => rfl
  | literal s => rfl
  | concat l r =>
      show max l.height r.height + 1 = 1 + max l.height (max r.height 0)
      omega
  | alt l r =>
      show max l.height r.height + 1 = 1 + max l.height (max r.height 0)
      omega
  | star x =>
      show x.height + 1 = 1 + max x.height 0
      omega

theorem size_eq_children (t : Tree σ) :
    t.size = 1 + (t.children.map size).foldr (· + ·) 0 := by
  have hnodes : (size : Tree σ → Nat) = nodes := funext size_eq_nodes
  rw [hnodes]
  cases t with
  | emptyWord => rfl
  | emptySet => rfl
  | literal s => rfl
  | concat l r =>
      show l.nodes + r.nodes + 1 = 1 + (l.nodes + (r.nodes + 0))
      omega
  | alt l r =>
      show l.nodes + r.nodes + 1 = 1 + (l.nodes + (r.nodes + 0))
      omega
  | star x =>
      show x.nodes + 1 = 1 + (x.nodes + 0)
      omega

/-! ## Equality -/

theorem length_leaves_of_shape {a b : Tree σ} (h : a.shape = b.shape) :
    a.leaves.length = b.leaves.length := by
  have hleaves := congrArg (fun t => t.leaves.length) h
  simpa [shape] using hleaves

section Equality

variable [BEq σ] {a b c : Tree σ}

theorem Same.shape_eq (h : Same a b) : a.shape = b.shape := by
  induction h with
  | emptyWord => rfl
  | emptySet => rfl
  | literal _ => rfl
  | concat _ _ h₁ h₂ =>
      have hboth := congr (congrArg Tree.concat h₁) h₂
      exact hboth
  | alt _ _ h₁ h₂ =>
      have hboth := congr (congrArg Tree.alt h₁) h₂
      exact hboth
  | star _ h => exact congrArg Tree.star h

theorem Same.leaves_beq (h : Same a b) :
    ∀ p ∈ a.leaves.zip b.leaves, (p.1 == p.2) = true := by
  induction h with
  | emptyWord => exact fun p hp => absurd hp List.not_mem_nil
  | emptySet => exact fun p hp => absurd hp List.not_mem_nil
  | literal h => exact List.forall_mem_singleton.mpr h
  | concat hl _ h₁ h₂ =>
      -- Left operands of one shape have as many leaves, so those of the right
      -- ones are paired.
      rw [leaves, leaves, List.zip_append (length_leaves_of_shape hl.shape_eq)]
      exact List.forall_mem_append.mpr ⟨h₁, h₂⟩
  | alt hl _ h₁ h₂ =>
      rw [leaves, leaves, List.zip_append (length_leaves_of_shape hl.shape_eq)]
      exact List.forall_mem_append.mpr ⟨h₁, h₂⟩
  | star _ h => exact h

theorem same_of_shape (hshape : a.shape = b.shape)
    (hleaves : ∀ p ∈ a.leaves.zip b.leaves, (p.1 == p.2) = true) :
    Same a b := by
  induction a generalizing b with
  | emptyWord =>
      cases b with
      | emptyWord => exact .emptyWord
      | _ => cases hshape
  | emptySet =>
      cases b with
      | emptySet => exact .emptySet
      | _ => cases hshape
  | literal s =>
      cases b with
      | literal t => exact .literal (hleaves (s, t) (List.mem_singleton_self _))
      | _ => cases hshape
  | concat l r hl hr =>
      cases b with
      | concat l' r' =>
          obtain ⟨hleft, hright⟩ := concat.inj hshape
          rw [leaves, leaves,
            List.zip_append (length_leaves_of_shape hleft)] at hleaves
          obtain ⟨hfirst, hsecond⟩ := List.forall_mem_append.mp hleaves
          exact .concat (hl hleft hfirst) (hr hright hsecond)
      | _ => cases hshape
  | alt l r hl hr =>
      cases b with
      | alt l' r' =>
          obtain ⟨hleft, hright⟩ := alt.inj hshape
          rw [leaves, leaves,
            List.zip_append (length_leaves_of_shape hleft)] at hleaves
          obtain ⟨hfirst, hsecond⟩ := List.forall_mem_append.mp hleaves
          exact .alt (hl hleft hfirst) (hr hright hsecond)
      | _ => cases hshape
  | star x hx =>
      cases b with
      | star x' => exact .star (hx (star.inj hshape) hleaves)
      | _ => cases hshape

/-- The same branching, and equal symbols at corresponding leaves. -/
theorem same_iff_shape :
    Same a b ↔
      a.shape = b.shape ∧ ∀ p ∈ a.leaves.zip b.leaves, (p.1 == p.2) = true :=
  ⟨fun h => ⟨h.shape_eq, h.leaves_beq⟩,
    fun ⟨hshape, hleaves⟩ => same_of_shape hshape hleaves⟩

theorem Same.symm [PartialEquivBEq σ] (h : Same a b) : Same b a := by
  induction h with
  | emptyWord => exact .emptyWord
  | emptySet => exact .emptySet
  | literal h => exact .literal (BEq.symm h)
  | concat _ _ h₁ h₂ => exact .concat h₁ h₂
  | alt _ _ h₁ h₂ => exact .alt h₁ h₂
  | star _ h => exact .star h

theorem Same.trans [PartialEquivBEq σ] (hab : Same a b) (hbc : Same b c) :
    Same a c := by
  induction hab generalizing c with
  | emptyWord => exact hbc
  | emptySet => exact hbc
  | literal h =>
      cases hbc with
      | literal h' => exact .literal (BEq.trans h h')
  | concat _ _ h₁ h₂ =>
      cases hbc with
      | concat h₁' h₂' => exact .concat (h₁ h₁') (h₂ h₂')
  | alt _ _ h₁ h₂ =>
      cases hbc with
      | alt h₁' h₂' => exact .alt (h₁ h₁') (h₂ h₂')
  | star _ h =>
      cases hbc with
      | star h' => exact .star (h h')

instance [EquivBEq σ] : EquivBEq (Tree σ) where
  symm h := (beq_iff_same _ _).mpr ((beq_iff_same _ _).mp h).symm
  trans h h' :=
    (beq_iff_same _ _).mpr
      (((beq_iff_same _ _).mp h).trans ((beq_iff_same _ _).mp h'))
  rfl := (beq_iff_same _ _).mpr (Same.refl _)

end Equality

/-- The measures and the comparison are what recursion on the trees gives: the
depth is one more than the greatest of the operands, the size one more than
theirs together. Pairs that are pending compare as equal exactly if each of them
is; a pair is, if the two trees have the same constructors everywhere and equal
symbols at corresponding leaves. So the comparison is an equivalence if the
comparison of symbols is one, and identity if that is. -/
theorem loops_are_recursive :
    (∀ t : Tree σ, t.depth = 1 + (t.children.map depth).foldr max 0) ∧
    (∀ t : Tree σ, t.size = 1 + (t.children.map size).foldr (· + ·) 0) ∧
    ∀ [BEq σ],
      (∀ pending : List (Tree σ × Tree σ),
        allEqual pending = true ↔ ∀ p ∈ pending, (p.1 == p.2) = true) ∧
      (∀ a b : Tree σ, (a == b) = true ↔ Same a b) ∧
      (∀ a b : Tree σ, (a == b) = true ↔
        a.shape = b.shape ∧ ∀ p ∈ a.leaves.zip b.leaves, (p.1 == p.2) = true) ∧
      (EquivBEq σ → Equivalence fun a b : Tree σ => (a == b) = true) ∧
      (LawfulBEq σ → ∀ a b : Tree σ, (a == b) = true ↔ a = b) := by
  refine ⟨depth_eq_children, size_eq_children, fun pending => ?_, beq_iff_same,
    fun a b => (beq_iff_same a b).trans same_iff_shape, fun _ => ?_,
    fun _ a b => beq_iff_eq⟩
  · simp only [allEqual_iff, beq_iff_same]
  · exact ⟨fun _ => BEq.rfl, BEq.symm, BEq.trans⟩

/-- Trees of classes that differ in the kind of a node and in two leaves. -/
theorem loops_are_recursive_for_classes :
    let a : Tree CharClass :=
      .star (.concat (.literal (.single 'a')) (.literal (.single 'b')))
    let b : Tree CharClass :=
      .star (.alt (.literal (.single 'b')) (.literal (.single 'a')))
    LawfulBEq CharClass ∧ EquivBEq CharClass ∧
      (a == a) = true ∧ (a == b) = false ∧
      allEqual [(a, a), (a, b)] = false ∧ a.depth = 3 ∧ a.size = 4 := by
  intro a b
  obtain ⟨hdepth, hsize, hcomparison⟩ := loops_are_recursive (σ := CharClass)
  obtain ⟨hpending, -, -, hequivalence, hidentity⟩ := hcomparison
  have hdiffer : ¬ (a == b) = true := by
    intro h
    have hroots : Tree.concat _ _ = Tree.alt _ _ :=
      star.inj ((hidentity inferInstance a b).mp h)
    cases hroots
  refine ⟨inferInstance, inferInstance, (hequivalence inferInstance).refl a,
    Bool.eq_false_iff.mpr hdiffer, Bool.eq_false_iff.mpr fun h => ?_, ?_, ?_⟩
  · have hmem : (a, b) ∈ [(a, a), (a, b)] :=
      List.mem_cons_of_mem _ (List.mem_singleton_self _)
    exact hdiffer ((hpending _).mp h (a, b) hmem)
  · simp [a, hdepth, children]
  · simp [a, hsize, children]

end PatternSyntax.Tree
