import Mathlib.Data.List.Infix
import PatternSyntax.Grammar

/-!
# Groups counted in the text

Literals are neither parentheses nor brackets, so every parenthesis of a pattern
is an end of a group, and how the groups lie inside one another can be told
without reading anything: it is a matter of counting along the text.

A derivation is under a limit, and whether the limit suffices is also a matter
of counting. Every group uses up one, and nothing else does. So a text that is
derived under some limit is derived under every limit that its nesting stays
within, with the same tree, and under no other.
-/

namespace PatternSyntax

/-- The greatest number of groups that are open at once in the text. -/
def nesting (s : List Char) : Nat :=
  (s.inits.map fun u => u.count '(' - u.count ')').foldr max 0

/-- As many groups are closed as are opened, and as many brackets. -/
structure Balanced (s : List Char) : Prop where
  groups : s.count '(' = s.count ')'
  brackets : s.count '[' = s.count ']'

section Nesting

variable {s rest : List Char} {n : Nat}

theorem foldr_max_le_iff {l : List Nat} :
    l.foldr max 0 ≤ n ↔ ∀ k ∈ l, k ≤ n := by
  induction l with
  | nil => simp
  | cons k l ih => rw [List.foldr_cons, Nat.max_le, ih, List.forall_mem_cons]

theorem nesting_le_iff :
    nesting s ≤ n ↔ ∀ u, u <+: s → u.count '(' ≤ n + u.count ')' := by
  simp only [nesting, foldr_max_le_iff, List.forall_mem_map, List.mem_inits,
    Nat.sub_le_iff_le_add]

theorem nesting_le_count (s : List Char) : nesting s ≤ s.count '(' :=
  nesting_le_iff.mpr fun _ hu => Nat.le_add_right_of_le (hu.count_le '(')

theorem prefix_append_cases {u : List Char} (h : u <+: s ++ rest) :
    u <+: s ∨ ∃ v, v <+: rest ∧ u = s ++ v := by
  have hcases := List.prefix_or_prefix_of_prefix h (List.prefix_append s rest)
  rcases hcases with hu | ⟨v, rfl⟩
  · exact Or.inl hu
  · exact Or.inr ⟨v, (List.prefix_append_right_inj s).mp h, rfl⟩

/-- Behind a text that closes its groups, the nesting starts again. -/
theorem nesting_append_le_iff (h : s.count '(' = s.count ')') :
    nesting (s ++ rest) ≤ n ↔ nesting s ≤ n ∧ nesting rest ≤ n := by
  simp only [nesting_le_iff]
  constructor
  · intro hall
    refine ⟨fun u hu => hall u (hu.trans (List.prefix_append s rest)),
      fun v hv => ?_⟩
    have hcount := hall (s ++ v) ((List.prefix_append_right_inj s).mpr hv)
    rw [List.count_append, List.count_append] at hcount
    omega
  · rintro ⟨hs, hrest⟩ u hu
    rcases prefix_append_cases hu with hu | ⟨v, hv, rfl⟩
    · exact hs u hu
    · have hcount := hrest v hv
      rw [List.count_append, List.count_append]
      omega

theorem nesting_group_le_iff :
    nesting ('(' :: (s ++ [')'])) ≤ n ↔ ∃ m, n = m + 1 ∧ nesting s ≤ m := by
  simp only [nesting_le_iff]
  constructor
  · intro hall
    have hopen := hall ['('] (List.prefix_append ['('] _)
    obtain ⟨m, rfl⟩ : ∃ m, n = m + 1 := ⟨n - 1, by simp at hopen; omega⟩
    refine ⟨m, rfl, fun u hu => ?_⟩
    have hinside : '(' :: u <+: '(' :: (s ++ [')']) :=
      (List.prefix_append_right_inj ['(']).mpr
        (hu.trans (List.prefix_append s _))
    have hcount := hall ('(' :: u) hinside
    rw [List.count_cons_self, List.count_cons_of_ne (by decide)] at hcount
    omega
  · rintro ⟨m, rfl, hs⟩ u hu
    rcases List.prefix_cons_iff.mp hu with rfl | ⟨v, rfl, hv⟩
    · exact Nat.zero_le _
    · rw [List.count_cons_self, List.count_cons_of_ne (by decide)]
      rcases List.prefix_concat_iff.mp hv with rfl | hv
      · -- The whole group closes one more than the part before its end.
        have hcount := hs s (List.prefix_refl s)
        simp only [List.count_append, List.count_singleton_self,
          List.count_singleton, beq_iff_eq]
        rw [if_neg (by decide)]
        omega
      · have hcount := hs v hv
        omega

end Nesting

/-! ## Texts of one kind -/

theorem count_literals {s : List Char} {d : Char}
    (hs : ∀ c ∈ s, isLiteral c = true) (hd : isLiteral d = false) :
    s.count d = 0 := by
  refine List.count_eq_zero.mpr fun hmem => ?_
  rw [hs d hmem] at hd
  cases hd

theorem Balanced.append {s rest : List Char} (hs : Balanced s)
    (hrest : Balanced rest) :
    Balanced (s ++ rest) := by
  constructor
  · rw [List.count_append, List.count_append, hs.groups, hrest.groups]
  · rw [List.count_append, List.count_append, hs.brackets, hrest.brackets]

theorem Balanced.group {s : List Char} (hs : Balanced s) :
    Balanced ('(' :: (s ++ [')'])) := by
  constructor
  · simp [hs.groups]
  · simp [hs.brackets]

namespace Grammar

theorem literals_of_items {s : List Char} {items : List BracketItem}
    (h : Items s items) :
    ∀ c ∈ s, isLiteral c = true := by
  induction h with
  | nil => exact fun _ hc => nomatch hc
  | single hc _ _ ih => exact List.forall_mem_cons.mpr ⟨hc, ih⟩
  | range hlo hhi _ _ ih =>
      have hdash : isLiteral '-' = true := by decide
      simp only [List.forall_mem_cons]
      exact ⟨hlo, hdash, hhi, ih⟩

/-- A bracket expression holds no characters with a structure but its own. -/
theorem count_bracket {s : List Char} {b : Bracket} {d : Char}
    (h : IsBracket s b) (hd : isLiteral d = false) (hcaret : d ≠ '^') :
    s.count d = ['[', ']'].count d := by
  cases h with
  | plain hitems =>
      have hbody := count_literals (literals_of_items hitems) hd
      simp only [List.count_cons, List.count_append, hbody, List.count_nil]
      omega
  | negated hitems =>
      have hbody := count_literals (literals_of_items hitems) hd
      simp only [List.count_cons, List.count_append, hbody, List.count_nil,
        beq_eq_false_iff_ne.mpr hcaret.symm, Bool.false_eq_true, if_false]
      omega

/-! ## Texts of the productions -/

theorem count_open_of_base_zero {s : List Char} {t : Tree Atom}
    (h : Base 0 s t) :
    s.count '(' = 0 := by
  cases h with
  | literal hc =>
      exact count_literals (List.forall_mem_singleton.mpr hc) (by decide)
  | bracket hb => exact count_bracket hb (by decide) (by decide)

mutual

theorem balanced_of_regex {n : Nat} {s : List Char} {t : Tree Atom} :
    Regex n s t → Balanced s
  | .last h => balanced_of_branch h
  | .more h hrest =>
    have bar : Balanced ['|'] := ⟨rfl, rfl⟩
    (balanced_of_branch h).append (bar.append (balanced_of_regex hrest))

theorem balanced_of_branch {n : Nat} {s : List Char} {t : Tree Atom} :
    Branch n s t → Balanced s
  | .last h => balanced_of_factor h
  | .more h hrest => (balanced_of_factor h).append (balanced_of_branch hrest)

theorem balanced_of_factor {n : Nat} {s : List Char} {t : Tree Atom} :
    Factor n s t → Balanced s
  | .once h => balanced_of_base h
  | .star h =>
    have star : Balanced ['*'] := ⟨rfl, rfl⟩
    (balanced_of_base h).append star

theorem balanced_of_base {n : Nat} {s : List Char} {t : Tree Atom} :
    Base n s t → Balanced s
  | .literal hc => by
      have hnone : ∀ d, isLiteral d = false → [_].count d = 0 := fun d hd =>
        count_literals (List.forall_mem_singleton.mpr hc) hd
      exact ⟨by rw [hnone _ (by decide), hnone _ (by decide)],
        by rw [hnone _ (by decide), hnone _ (by decide)]⟩
  | .group h => (balanced_of_regex h).group
  | .bracket hb => by
      constructor
      · rw [count_bracket hb (by decide) (by decide),
          count_bracket hb (by decide) (by decide)]
        decide
      · rw [count_bracket hb (by decide) (by decide),
          count_bracket hb (by decide) (by decide)]
        decide

end

mutual

/-- A text nests its groups no deeper than the limit it is derived under. -/
theorem nesting_of_regex {n : Nat} {s : List Char} {t : Tree Atom} :
    Regex n s t → nesting s ≤ n
  | .last h => nesting_of_branch h
  | .more h hrest => by
      have hbar : nesting ['|'] ≤ n :=
        Nat.le_trans (nesting_le_count _) (Nat.zero_le n)
      exact (nesting_append_le_iff (balanced_of_branch h).groups).mpr
        ⟨nesting_of_branch h,
          (nesting_append_le_iff (s := ['|']) rfl).mpr
            ⟨hbar, nesting_of_regex hrest⟩⟩

theorem nesting_of_branch {n : Nat} {s : List Char} {t : Tree Atom} :
    Branch n s t → nesting s ≤ n
  | .last h => nesting_of_factor h
  | .more h hrest =>
    (nesting_append_le_iff (balanced_of_factor h).groups).mpr
      ⟨nesting_of_factor h, nesting_of_branch hrest⟩

theorem nesting_of_factor {n : Nat} {s : List Char} {t : Tree Atom} :
    Factor n s t → nesting s ≤ n
  | .once h => nesting_of_base h
  | .star h => by
      have hstar : nesting ['*'] ≤ n :=
        Nat.le_trans (nesting_le_count _) (Nat.zero_le n)
      exact (nesting_append_le_iff (balanced_of_base h).groups).mpr
        ⟨nesting_of_base h, hstar⟩

theorem nesting_of_base {n : Nat} {s : List Char} {t : Tree Atom} :
    Base n s t → nesting s ≤ n
  | .literal hc => by
      refine Nat.le_trans (nesting_le_count _) ?_
      rw [count_literals (List.forall_mem_singleton.mpr hc) (by decide)]
      exact Nat.zero_le n
  | .group h => nesting_group_le_iff.mpr ⟨_, rfl, nesting_of_regex h⟩
  | .bracket hb => by
      refine Nat.le_trans (nesting_le_count _) ?_
      rw [count_bracket hb (by decide) (by decide)]
      exact Nat.zero_le n

end

mutual

/-- A derived text is derived under every limit that it nests within. -/
theorem Regex.within {n m : Nat} {s : List Char} {t : Tree Atom} :
    Regex n s t → nesting s ≤ m → Regex m s t
  | .last h, hm => .last (h.within hm)
  | .more h hrest, hm => by
      obtain ⟨hs, hm⟩ :=
        (nesting_append_le_iff (balanced_of_branch h).groups).mp hm
      obtain ⟨-, hr⟩ := (nesting_append_le_iff (s := ['|']) rfl).mp hm
      exact .more (h.within hs) (hrest.within hr)

theorem Branch.within {n m : Nat} {s : List Char} {t : Tree Atom} :
    Branch n s t → nesting s ≤ m → Branch m s t
  | .last h, hm => .last (h.within hm)
  | .more h hrest, hm => by
      obtain ⟨hs, hr⟩ :=
        (nesting_append_le_iff (balanced_of_factor h).groups).mp hm
      exact .more (h.within hs) (hrest.within hr)

theorem Factor.within {n m : Nat} {s : List Char} {t : Tree Atom} :
    Factor n s t → nesting s ≤ m → Factor m s t
  | .once h, hm => .once (h.within hm)
  | .star h, hm => by
      obtain ⟨hs, -⟩ :=
        (nesting_append_le_iff (balanced_of_base h).groups).mp hm
      exact .star (h.within hs)

theorem Base.within {n m : Nat} {s : List Char} {t : Tree Atom} :
    Base n s t → nesting s ≤ m → Base m s t
  | .literal hc, _ => .literal hc
  | .group h, hm => by
      obtain ⟨k, rfl, hs⟩ := nesting_group_le_iff.mp hm
      exact .group (h.within hs)
  | .bracket hb, _ => .bracket hb

end

/-! A higher limit derives what a lower one does. -/

theorem Regex.mono {n m : Nat} {s : List Char} {t : Tree Atom} (h : Regex n s t)
    (hle : n ≤ m) :
    Regex m s t :=
  h.within (Nat.le_trans (nesting_of_regex h) hle)

theorem Branch.mono {n m : Nat} {s : List Char} {t : Tree Atom}
    (h : Branch n s t) (hle : n ≤ m) : Branch m s t :=
  h.within (Nat.le_trans (nesting_of_branch h) hle)

theorem Factor.mono {n m : Nat} {s : List Char} {t : Tree Atom}
    (h : Factor n s t) (hle : n ≤ m) : Factor m s t :=
  h.within (Nat.le_trans (nesting_of_factor h) hle)

theorem Base.mono {n m : Nat} {s : List Char} {t : Tree Atom} (h : Base n s t)
    (hle : n ≤ m) :
    Base m s t :=
  h.within (Nat.le_trans (nesting_of_base h) hle)

end Grammar

end PatternSyntax
