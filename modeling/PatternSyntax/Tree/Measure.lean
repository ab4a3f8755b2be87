import PatternSyntax.Tree.Basic

/-!
# Depth and size

Both run over the tree with a list of subtrees still to be counted. Each round
takes one subtree off the list and puts its children on it, so the number of
nodes on the list falls by one, and the rounds end.
-/

namespace PatternSyntax.Tree

variable {σ : Type}

def pendingNodes : List (Tree σ) → Nat
  | [] => 0
  | t :: rest => t.nodes + pendingNodes rest

/-- Adds the nodes of all pending trees to those counted. -/
def countNodes (pending : List (Tree σ)) (counted : Nat) : Nat :=
  match pending with
  | [] => counted
  | t :: rest =>
    match t with
    | emptyWord => countNodes rest (counted + 1)
    | emptySet => countNodes rest (counted + 1)
    | literal _ => countNodes rest (counted + 1)
    | concat l r => countNodes (r :: l :: rest) (counted + 1)
    | alt l r => countNodes (r :: l :: rest) (counted + 1)
    | star x => countNodes (x :: rest) (counted + 1)
termination_by pendingNodes pending
decreasing_by all_goals simp [pendingNodes, nodes]; try omega

theorem countNodes_eq (pending : List (Tree σ)) (counted : Nat) :
    countNodes pending counted = counted + pendingNodes pending := by
  fun_induction countNodes pending counted with
  | case1 => simp [pendingNodes]
  | case2 counted rest ih => rw [ih]; simp [pendingNodes, nodes]; omega
  | case3 counted rest ih => rw [ih]; simp [pendingNodes, nodes]; omega
  | case4 counted rest s ih => rw [ih]; simp [pendingNodes, nodes]; omega
  | case5 counted rest l r ih => rw [ih]; simp [pendingNodes, nodes]; omega
  | case6 counted rest l r ih => rw [ih]; simp [pendingNodes, nodes]; omega
  | case7 counted rest x ih => rw [ih]; simp [pendingNodes, nodes]; omega

def size (t : Tree σ) : Nat :=
  countNodes [t] 0

theorem size_eq_nodes (t : Tree σ) : t.size = t.nodes := by
  simp [size, countNodes_eq, pendingNodes]

/-- The greatest level found so far or reached by a pending tree, each of which
stands with the level of its root. -/
def deepest (pending : List (Tree σ × Nat)) (found : Nat) : Nat :=
  match pending with
  | [] => found
  | (t, level) :: rest =>
    match t with
    | emptyWord => deepest rest (max found level)
    | emptySet => deepest rest (max found level)
    | literal _ => deepest rest (max found level)
    | concat l r =>
      deepest ((r, level + 1) :: (l, level + 1) :: rest) (max found level)
    | alt l r =>
      deepest ((r, level + 1) :: (l, level + 1) :: rest) (max found level)
    | star x => deepest ((x, level + 1) :: rest) (max found level)
termination_by pendingNodes (pending.map (·.1))
decreasing_by all_goals simp [pendingNodes, nodes]; try omega

/-- The greatest level that a pending tree reaches. -/
def lowestLevel (pending : List (Tree σ × Nat)) : Nat :=
  (pending.map fun p => p.1.height + p.2 - 1).foldr max 0

/-- Below a node with two children lies what lies below either of them, one
level further down. -/
theorem max_level_children {a b : Nat} (found level rest : Nat) :
    max (max found level)
      (max (b + (level + 1) - 1) (max (a + (level + 1) - 1) rest)) =
      max found (max (max a b + 1 + level - 1) rest) := by
  have below : level ≤ a + level := Nat.le_add_left level a
  have right : b + (level + 1) - 1 = b + level := rfl
  have left : a + (level + 1) - 1 = a + level := rfl
  have both : max a b + 1 + level - 1 = max (a + level) (b + level) := by
    rw [Nat.add_max_add_right]
    omega
  rw [right, left, both, Nat.max_assoc, Nat.max_left_comm (b + level),
    Nat.max_assoc, ← Nat.max_assoc level, Nat.max_eq_right below]

theorem deepest_eq (pending : List (Tree σ × Nat)) (found : Nat) :
    deepest pending found = max found (lowestLevel pending) := by
  fun_induction deepest pending found with
  | case1 => simp [lowestLevel]
  | case2 found level rest ih =>
      rw [ih]; simp [lowestLevel, height, Nat.max_assoc]
  | case3 found level rest ih =>
      rw [ih]; simp [lowestLevel, height, Nat.max_assoc]
  | case4 found level rest s ih =>
      rw [ih]; simp [lowestLevel, height, Nat.max_assoc]
  | case5 found level rest l r ih =>
      rw [ih]
      simp only [lowestLevel, height, List.map_cons, List.foldr_cons]
      exact max_level_children found _ _
  | case6 found level rest l r ih =>
      rw [ih]
      simp only [lowestLevel, height, List.map_cons, List.foldr_cons]
      exact max_level_children found _ _
  | case7 found level rest x ih =>
      have hx := x.height_pos
      rw [ih]
      simp only [lowestLevel, height, List.map_cons, List.foldr_cons]
      omega

/-- The height of the tree; a leaf has depth one. -/
def depth (t : Tree σ) : Nat :=
  deepest [(t, 1)] 0

theorem depth_eq_height (t : Tree σ) : t.depth = t.height := by
  simp [depth, deepest_eq, lowestLevel]

end PatternSyntax.Tree
