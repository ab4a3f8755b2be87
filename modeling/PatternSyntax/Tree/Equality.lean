import PatternSyntax.Tree.Measure

/-!
# Equality of trees

Two trees are equal if they branch in the same way and carry equal symbols at
the same leaves. The comparison keeps a list of pairs still to be compared and
stops at the first difference it meets.
-/

namespace PatternSyntax.Tree

variable {σ : Type}

def allEqual [BEq σ] (pending : List (Tree σ × Tree σ)) : Bool :=
  match pending with
  | [] => true
  | (a, b) :: rest =>
    match a, b with
    | emptyWord, emptyWord => allEqual rest
    | emptySet, emptySet => allEqual rest
    | literal s, literal t => if s == t then allEqual rest else false
    | concat a₁ a₂, concat b₁ b₂ => allEqual ((a₂, b₂) :: (a₁, b₁) :: rest)
    | alt a₁ a₂, alt b₁ b₂ => allEqual ((a₂, b₂) :: (a₁, b₁) :: rest)
    | star a, star b => allEqual ((a, b) :: rest)
    | _, _ => false
termination_by pendingNodes (pending.map (·.1))
decreasing_by all_goals simp [pendingNodes, nodes]; try omega

instance [BEq σ] : BEq (Tree σ) where
  beq a b := allEqual [(a, b)]

/-- The same constructor at every place, and equal symbols at all leaves. -/
inductive Same [BEq σ] : Tree σ → Tree σ → Prop where
  | emptyWord : Same emptyWord emptyWord
  | emptySet : Same emptySet emptySet
  | literal {s t : σ} : (s == t) = true → Same (literal s) (literal t)
  | concat {a₁ a₂ b₁ b₂ : Tree σ} :
      Same a₁ b₁ → Same a₂ b₂ → Same (concat a₁ a₂) (concat b₁ b₂)
  | alt {a₁ a₂ b₁ b₂ : Tree σ} :
      Same a₁ b₁ → Same a₂ b₂ → Same (alt a₁ a₂) (alt b₁ b₂)
  | star {a b : Tree σ} : Same a b → Same (star a) (star b)

/-- The comparison finds no difference exactly if there is none, in whatever
order it takes the pairs. -/
theorem allEqual_iff [BEq σ] (pending : List (Tree σ × Tree σ)) :
    allEqual pending = true ↔ ∀ p ∈ pending, Same p.1 p.2 := by
  fun_induction allEqual pending with
  | case1 => simp
  | case2 rest ih => simp [ih, Same.emptyWord]
  | case3 rest ih => simp [ih, Same.emptySet]
  | case4 rest s t h ih => simp [ih, Same.literal h]
  | case5 rest s t h =>
      simp only [List.forall_mem_cons]
      constructor
      · intro absurdity
        cases absurdity
      · rintro ⟨same, -⟩
        cases same with
        | literal equal => exact absurd equal h
  | case6 rest a₁ a₂ b₁ b₂ ih =>
      simp only [ih, List.forall_mem_cons]
      constructor
      · rintro ⟨h₂, h₁, h⟩
        exact ⟨.concat h₁ h₂, h⟩
      · rintro ⟨same, h⟩
        cases same with
        | concat h₁ h₂ => exact ⟨h₂, h₁, h⟩
  | case7 rest a₁ a₂ b₁ b₂ ih =>
      simp only [ih, List.forall_mem_cons]
      constructor
      · rintro ⟨h₂, h₁, h⟩
        exact ⟨.alt h₁ h₂, h⟩
      · rintro ⟨same, h⟩
        cases same with
        | alt h₁ h₂ => exact ⟨h₂, h₁, h⟩
  | case8 rest a b ih =>
      simp only [ih, List.forall_mem_cons]
      constructor
      · rintro ⟨h₁, h⟩
        exact ⟨.star h₁, h⟩
      · rintro ⟨same, h⟩
        cases same with
        | star h₁ => exact ⟨h₁, h⟩
  | case9 rest a b h₁ h₂ h₃ h₄ h₅ h₆ =>
      -- The roots differ, so no rule relates the two trees.
      simp only [List.forall_mem_cons]
      constructor
      · intro absurdity
        cases absurdity
      · rintro ⟨same, -⟩
        cases same with
        | emptyWord => exact (h₁ rfl rfl).elim
        | emptySet => exact (h₂ rfl rfl).elim
        | literal => exact (h₃ _ _ rfl rfl).elim
        | concat => exact (h₄ _ _ _ _ rfl rfl).elim
        | alt => exact (h₅ _ _ _ _ rfl rfl).elim
        | star => exact (h₆ _ _ rfl rfl).elim

theorem beq_iff_same [BEq σ] (a b : Tree σ) : (a == b) = true ↔ Same a b := by
  show allEqual [(a, b)] = true ↔ Same a b
  simp [allEqual_iff]

end PatternSyntax.Tree
