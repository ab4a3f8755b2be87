import PatternSyntax.Grammar
import PatternSyntax.Tree.Printer

/-!
# The text of a tree derives the tree

The printer looks at an operand's root and decides whether it needs a group. The
grammar has a production for each kind of root, and the productions include one
another. So the invariant of the induction is that the text of a tree is derived
by the production of its root. Then an operand either stands as it is, and the
production it is used in includes that of its root, or it is in a group, and a
group may stand anywhere. A group costs one level of the limit, which is what
the depth counts.

The other direction is about trees that were derived. They have no marks below
the root, and the depth that printing them needs is within the limit they were
derived under, since each production that can only hold a tree in a group has
paid for one.
-/

namespace PatternSyntax

namespace Tree

variable {σ ρ : Type}

/-- No node is the empty word or the empty set. -/
def markFree : Tree σ → Bool
  | emptyWord => false
  | emptySet => false
  | literal _ => true
  | concat l r => l.markFree && r.markFree
  | alt l r => l.markFree && r.markFree
  | star x => x.markFree

section Relabelled

variable (f : σ → ρ) (t : Tree σ)

@[simp] theorem isLiteral_map : (t.map f).isLiteral = t.isLiteral := by
  cases t <;> rfl

@[simp] theorem isConcat_map : (t.map f).isConcat = t.isConcat := by
  cases t <;> rfl

@[simp] theorem isAlt_map : (t.map f).isAlt = t.isAlt := by
  cases t <;> rfl

@[simp] theorem markFree_map : (t.map f).markFree = t.markFree := by
  induction t with
  | emptyWord => rfl
  | emptySet => rfl
  | literal s => rfl
  | concat l r hl hr => rw [map, markFree, markFree, hl, hr]
  | alt l r hl hr => rw [map, markFree, markFree, hl, hr]
  | star x hx => rw [map, markFree, markFree, hx]

@[simp] theorem groupDepth_map : (t.map f).groupDepth = t.groupDepth := by
  induction t with
  | emptyWord => rfl
  | emptySet => rfl
  | literal s => rfl
  | concat l r hl hr =>
      simp only [map, groupDepth, hl, hr, isAlt_map, isConcat_map]
  | alt l r hl hr => simp only [map, groupDepth, hl, hr, isAlt_map]
  | star x hx => simp only [map, groupDepth, hx, isLiteral_map]

@[simp] theorem leaves_map : (t.map f).leaves = t.leaves.map f := by
  induction t with
  | emptyWord => rfl
  | emptySet => rfl
  | literal s => rfl
  | concat l r hl hr => rw [map, leaves, leaves, hl, hr, List.map_append]
  | alt l r hl hr => rw [map, leaves, leaves, hl, hr, List.map_append]
  | star x hx => rw [map, leaves, leaves, hx]

end Relabelled

end Tree

namespace Grammar

/-! ## From the tree to a derivation -/

/-- The text is derived by the production that belongs to the root of its
tree. -/
def AtRoot (n : Nat) (s : List Char) (t : Tree Atom) : Prop :=
  match t with
  | .emptyWord => False
  | .emptySet => False
  | .literal _ => Base n s t
  | .concat _ _ => Branch n s t
  | .alt _ _ => Regex n s t
  | .star _ => Factor n s t

variable {n : Nat} {s : List Char} {t : Tree Atom}

theorem AtRoot.base (h : AtRoot n s t) (hroot : t.isLiteral = true) :
    Base n s t := by
  cases t with
  | literal a => exact h
  | _ => cases hroot

theorem AtRoot.factor (h : AtRoot n s t)
    (hroot : (t.isAlt || t.isConcat) = false) :
    Factor n s t := by
  cases t with
  | emptyWord => exact h.elim
  | emptySet => exact h.elim
  | literal a => exact .once h
  | concat l r => cases hroot
  | alt l r => cases hroot
  | star x => exact h

theorem AtRoot.branch (h : AtRoot n s t) (hroot : t.isAlt = false) :
    Branch n s t := by
  by_cases hconcat : t.isConcat = true
  · cases t with
    | concat l r => exact h
    | _ => cases hconcat
  · exact .last (h.factor (by simp [hroot, hconcat]))

theorem AtRoot.regex (h : AtRoot n s t) : Regex n s t := by
  by_cases halt : t.isAlt = true
  · cases t with
    | alt l r => exact h
    | _ => cases halt
  · exact .last (h.branch (by simpa using halt))

section Printing

variable {σ : Type} {symbol : σ → String} {f : Atom → σ}

/-- An operand stands in a group, or as it is because it needs none. -/
theorem exists_operand {t : Tree σ} {needed : Bool} {n : Nat}
    (ht : ∀ m, t.groupDepth ≤ m →
      ∃ u, u.map f = t ∧ AtRoot m (t.spelling symbol).toList u)
    (hdepth : t.groupDepth + needed.toNat ≤ n) :
    ∃ u, u.map f = t ∧
      (Base n (Tree.grouped needed (t.spelling symbol)).toList u ∨
        needed = false ∧
        AtRoot n (Tree.grouped needed (t.spelling symbol)).toList u) := by
  cases needed with
  | false =>
      obtain ⟨u, hu, hs⟩ := ht n hdepth
      exact ⟨u, hu, Or.inr ⟨rfl, hs⟩⟩
  | true =>
      obtain ⟨m, rfl⟩ : ∃ m, n = m + 1 := ⟨n - 1, by
        rw [Bool.toNat_true] at hdepth
        omega⟩
      obtain ⟨u, hu, hs⟩ := ht m (Nat.le_of_succ_le_succ hdepth)
      refine ⟨u, hu, Or.inl ?_⟩
      have htext : (Tree.grouped true (t.spelling symbol)).toList =
          '(' :: ((t.spelling symbol).toList ++ [')']) := by
        simp [Tree.grouped]
      rw [htext]
      exact .group hs.regex

/-- A tree without marks has a text that derives it, if the texts of its symbols
derive them. -/
theorem exists_derivation {t : Tree σ} (hmarks : t.markFree = true)
    (hleaves : ∀ s ∈ t.leaves, ∃ a, f a = s ∧
      ∀ n, Base n (symbol s).toList (.literal a)) :
    ∀ n, t.groupDepth ≤ n →
      ∃ u, u.map f = t ∧ AtRoot n (t.spelling symbol).toList u := by
  induction t with
  | emptyWord => cases hmarks
  | emptySet => cases hmarks
  | literal s =>
      intro n _
      obtain ⟨a, rfl, hs⟩ := hleaves s (List.mem_singleton_self s)
      exact ⟨.literal a, rfl, hs n⟩
  | concat l r hl hr =>
      intro n hdepth
      rw [Tree.markFree, Bool.and_eq_true] at hmarks
      obtain ⟨hleft, hright⟩ := List.forall_mem_append.mp hleaves
      rw [Tree.groupDepth, Nat.max_le] at hdepth
      obtain ⟨u, hu, hs⟩ := exists_operand (hl hmarks.1 hleft) hdepth.1
      obtain ⟨v, hv, hrest⟩ := exists_operand (hr hmarks.2 hright) hdepth.2
      refine ⟨.concat u v, by rw [Tree.map, hu, hv], ?_⟩
      rw [Tree.spelling, String.toList_append]
      refine Branch.more ?_ ?_
      · rcases hs with hs | ⟨hroot, hs⟩
        · exact .once hs
        · exact hs.factor
            (by rw [← hroot, ← hu, Tree.isAlt_map, Tree.isConcat_map])
      · rcases hrest with hrest | ⟨hroot, hrest⟩
        · exact .last (.once hrest)
        · exact hrest.branch (by rw [← hroot, ← hv, Tree.isAlt_map])
  | alt l r hl hr =>
      intro n hdepth
      rw [Tree.markFree, Bool.and_eq_true] at hmarks
      obtain ⟨hleft, hright⟩ := List.forall_mem_append.mp hleaves
      rw [Tree.groupDepth, Nat.max_le] at hdepth
      obtain ⟨u, hu, hs⟩ := exists_operand (hl hmarks.1 hleft) hdepth.1
      obtain ⟨v, hv, hrest⟩ := hr hmarks.2 hright n hdepth.2
      refine ⟨.alt u v, by rw [Tree.map, hu, hv], ?_⟩
      rw [Tree.spelling, String.toList_append, String.toList_append,
        List.append_assoc]
      refine Regex.more ?_ hrest.regex
      rcases hs with hs | ⟨hroot, hs⟩
      · exact .last (.once hs)
      · exact hs.branch (by rw [← hroot, ← hu, Tree.isAlt_map])
  | star x hx =>
      intro n hdepth
      obtain ⟨u, hu, hs⟩ := exists_operand (hx hmarks hleaves) hdepth
      refine ⟨.star u, by rw [Tree.map, hu], ?_⟩
      rw [Tree.spelling, String.toList_append]
      refine Factor.star ?_
      rcases hs with hs | ⟨hroot, hs⟩
      · exact hs
      · refine hs.base ?_
        rw [← Tree.isLiteral_map f, hu]
        simpa using hroot

end Printing

/-! ## From a derivation to the tree

What is said of each production below is what the next one needs. -/

mutual

theorem markFree_of_regex {n : Nat} {s : List Char} {t : Tree Atom} :
    Regex n s t → t.markFree = true
  | .last h => markFree_of_branch h
  | .more h hrest => by
      rw [Tree.markFree, markFree_of_branch h, markFree_of_regex hrest]
      rfl

theorem markFree_of_branch {n : Nat} {s : List Char} {t : Tree Atom} :
    Branch n s t → t.markFree = true
  | .last h => markFree_of_factor h
  | .more h hrest => by
      rw [Tree.markFree, markFree_of_factor h, markFree_of_branch hrest]
      rfl

theorem markFree_of_factor {n : Nat} {s : List Char} {t : Tree Atom} :
    Factor n s t → t.markFree = true
  | .once h => markFree_of_base h
  | .star h => by
      rw [Tree.markFree]
      exact markFree_of_base h

theorem markFree_of_base {n : Nat} {s : List Char} {t : Tree Atom} :
    Base n s t → t.markFree = true
  | .literal _ => rfl
  | .group h => markFree_of_regex h
  | .bracket _ => rfl

end

mutual

theorem groupDepth_of_regex {n : Nat} {s : List Char} {t : Tree Atom} :
    Regex n s t → t.groupDepth ≤ n
  | .last h => Nat.le_of_add_right_le (groupDepth_of_branch h)
  | .more h hrest =>
    Nat.max_le.mpr ⟨groupDepth_of_branch h, groupDepth_of_regex hrest⟩

theorem groupDepth_of_branch {n : Nat} {s : List Char} {t : Tree Atom} :
    Branch n s t → t.groupDepth + t.isAlt.toNat ≤ n
  | .last (t := t) h => by
      have hfactor := groupDepth_of_factor h
      have hle : t.isAlt.toNat ≤ (t.isAlt || t.isConcat).toNat := by
        cases t.isAlt <;> simp
      omega
  | .more h hrest =>
    Nat.max_le.mpr ⟨groupDepth_of_factor h, groupDepth_of_branch hrest⟩

theorem groupDepth_of_factor {n : Nat} {s : List Char} {t : Tree Atom} :
    Factor n s t → t.groupDepth + (t.isAlt || t.isConcat).toNat ≤ n
  | .once (t := t) h => by
      have hbase := groupDepth_of_base h
      have hle : (t.isAlt || t.isConcat).toNat ≤ (!t.isLiteral).toNat := by
        cases t <;> simp [Tree.isAlt, Tree.isConcat, Tree.isLiteral]
      omega
  | .star h => groupDepth_of_base h

theorem groupDepth_of_base {n : Nat} {s : List Char} {t : Tree Atom} :
    Base n s t → t.groupDepth + (!t.isLiteral).toNat ≤ n
  | .literal _ => Nat.zero_le n
  | .group h => Nat.add_le_add (groupDepth_of_regex h) (Bool.toNat_le _)
  | .bracket _ => Nat.zero_le n

end

mutual

/-- The leaves of a derived tree are derived by themselves, without any
group. -/
theorem leaves_of_regex {n : Nat} {s : List Char} {t : Tree Atom} :
    Regex n s t → ∀ a ∈ t.leaves, ∃ text, Base 0 text (.literal a)
  | .last h => leaves_of_branch h
  | .more h hrest =>
    List.forall_mem_append.mpr ⟨leaves_of_branch h, leaves_of_regex hrest⟩

theorem leaves_of_branch {n : Nat} {s : List Char} {t : Tree Atom} :
    Branch n s t → ∀ a ∈ t.leaves, ∃ text, Base 0 text (.literal a)
  | .last h => leaves_of_factor h
  | .more h hrest =>
    List.forall_mem_append.mpr ⟨leaves_of_factor h, leaves_of_branch hrest⟩

theorem leaves_of_factor {n : Nat} {s : List Char} {t : Tree Atom} :
    Factor n s t → ∀ a ∈ t.leaves, ∃ text, Base 0 text (.literal a)
  | .once h => leaves_of_base h
  | .star h => by
      rw [Tree.leaves]
      exact leaves_of_base h

theorem leaves_of_base {n : Nat} {s : List Char} {t : Tree Atom} :
    Base n s t → ∀ a ∈ t.leaves, ∃ text, Base 0 text (.literal a)
  | .literal hc => List.forall_mem_singleton.mpr ⟨_, .literal hc⟩
  | .group h => leaves_of_regex h
  | .bracket hb => List.forall_mem_singleton.mpr ⟨_, .bracket hb⟩

end

end Grammar

end PatternSyntax
