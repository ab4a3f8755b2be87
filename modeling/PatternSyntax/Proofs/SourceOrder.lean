import PatternSyntax.Proofs.BracketReading
import PatternSyntax.Proofs.GroupNesting

/-!
# The atoms of a text in their order

Which atoms a pattern has does not depend on how its operators combine them.
Reading from left to right, one skips the operators, takes every literal by
itself and every bracket expression as a whole. In the tree of the pattern these
are the leaves, from left to right.

A text that is only the front of a pattern may end inside a bracket expression.
Then it divides into what is complete and the part behind the last opening
bracket, and there is one way only to divide it.
-/

namespace PatternSyntax.Grammar

/-- The characters that combine atoms. -/
def operators : List Char :=
  ['|', '*', '(', ')']

/-- The atoms of a text in which no bracket is left open. -/
inductive Atoms : List Char → List Atom → Prop where
  | nil : Atoms [] []
  | operator {c : Char} {rest : List Char} {atoms : List Atom} :
      c ∈ operators → Atoms rest atoms → Atoms (c :: rest) atoms
  | char {c : Char} {rest : List Char} {atoms : List Atom} :
      isLiteral c = true → Atoms rest atoms →
      Atoms (c :: rest) (.char c :: atoms)
  | bracket {s rest : List Char} {b : Bracket} {atoms : List Atom} :
      IsBracket s b → Atoms rest atoms → Atoms (s ++ rest) (.bracket b :: atoms)

/-- A bracket expression that has begun and is not closed, or nothing. -/
def Unfinished (s : List Char) : Prop :=
  s = [] ∨ s.head? = some '[' ∧ ']' ∉ s

variable {s rest : List Char} {atoms more : List Atom} {b : Bracket}

theorem Atoms.append (hs : Atoms s atoms) (hrest : Atoms rest more) :
    Atoms (s ++ rest) (atoms ++ more) := by
  induction hs with
  | nil => exact hrest
  | operator hc _ ih => exact .operator hc ih
  | char hc _ ih => exact .char hc ih
  | bracket hb _ ih =>
      rw [List.append_assoc]
      exact .bracket hb ih

theorem isLiteral_operator {c : Char} (hc : c ∈ operators) :
    isLiteral c = false := by
  simp only [operators, List.mem_cons, List.not_mem_nil, or_false] at hc
  rcases hc with rfl | rfl | rfl | rfl
  all_goals decide

theorem atoms_operator {c : Char} (hc : c ∈ operators) : Atoms [c] [] :=
  .operator hc .nil

theorem Atoms.concat_operator {c : Char} (hs : Atoms s atoms)
    (hc : c ∈ operators) :
    Atoms (s ++ [c]) atoms := by
  have h := hs.append (atoms_operator hc)
  rw [List.append_nil] at h
  exact h

theorem atoms_bracket (hb : IsBracket s b) : Atoms s [.bracket b] := by
  have h := Atoms.bracket hb .nil
  rw [List.append_nil] at h
  exact h

/-- Every bracket expression among the atoms stands in the text. -/
theorem Atoms.isBracket (h : Atoms s atoms) :
    ∀ b, .bracket b ∈ atoms → ∃ text, IsBracket text b := by
  induction h with
  | nil => exact fun _ hb => nomatch hb
  | operator _ _ ih => exact ih
  | char _ _ ih =>
      intro b hb
      rcases List.mem_cons.mp hb with heq | hb
      · cases heq
      · exact ih b hb
  | bracket hbracket _ ih =>
      intro b hb
      rcases List.mem_cons.mp hb with heq | hb
      · cases heq
        exact ⟨_, hbracket⟩
      · exact ih b hb

/-! ## The leaves of a tree are the atoms of its text -/

mutual

theorem atoms_of_regex {n : Nat} {s : List Char} {t : Tree Atom} :
    Regex n s t → Atoms s t.leaves
  | .last h => atoms_of_branch h
  | .more h hrest =>
    (atoms_of_branch h).append (.operator (by decide) (atoms_of_regex hrest))

theorem atoms_of_branch {n : Nat} {s : List Char} {t : Tree Atom} :
    Branch n s t → Atoms s t.leaves
  | .last h => atoms_of_factor h
  | .more h hrest => (atoms_of_factor h).append (atoms_of_branch hrest)

theorem atoms_of_factor {n : Nat} {s : List Char} {t : Tree Atom} :
    Factor n s t → Atoms s t.leaves
  | .once h => atoms_of_base h
  | .star h => (atoms_of_base h).concat_operator (by decide)

theorem atoms_of_base {n : Nat} {s : List Char} {t : Tree Atom} :
    Base n s t → Atoms s t.leaves
  | .literal hc => .char hc .nil
  | .group h =>
    .operator (by decide) ((atoms_of_regex h).concat_operator (by decide))
  | .bracket hb => atoms_bracket hb

end

/-! ## One division only -/

theorem head_of_bracket (hb : IsBracket s b) : ∃ body, s = '[' :: body := by
  cases hb with
  | plain _ => exact ⟨_, rfl⟩
  | negated _ => exact ⟨_, rfl⟩

theorem last_of_bracket (hb : IsBracket s b) : ∃ body, s = body ++ [']'] := by
  cases hb with
  | @plain body _ _ _ => exact ⟨'[' :: body, rfl⟩
  | @negated body _ _ _ => exact ⟨'[' :: '^' :: body, rfl⟩

theorem close_mem_of_bracket (hb : IsBracket s b) : ']' ∈ s := by
  obtain ⟨body, rfl⟩ := last_of_bracket hb
  exact List.mem_append_right body (List.mem_singleton_self ']')

/-- The first bracket expression of a text is determined by the text. -/
theorem bracket_unique {s' rest' : List Char} {b' : Bracket}
    (hb : IsBracket s b) (hb' : IsBracket s' b') (h : s ++ rest = s' ++ rest') :
    b = b' ∧ rest = rest' := by
  obtain ⟨body, rfl⟩ := head_of_bracket hb
  have hinput : '[' :: (Input.ofList (body ++ rest)).rest =
      ('[' :: body) ++ rest := rfl
  obtain ⟨read, hread, hrest⟩ := Bracket.readBody_complete hb hinput
  obtain ⟨read', hread', hrest'⟩ :=
    Bracket.readBody_complete hb' (hinput.trans h)
  rw [hread] at hread'
  cases hread'
  rw [hrest] at hrest'
  exact ⟨rfl, (List.cons.inj hrest').2⟩

/-- No atom stands in an unfinished bracket expression. -/
theorem atoms_of_unfinished {opened : List Char} (hopened : Unfinished opened)
    (hs : Atoms s atoms) (h : opened = s ++ rest) : s = [] ∧ atoms = [] := by
  cases hs with
  | nil => exact ⟨rfl, rfl⟩
  | operator hc _ =>
      subst h
      rcases hopened with hnil | ⟨hhead, -⟩
      · cases hnil
      · cases hhead
        exact absurd hc (by decide)
  | char hc _ =>
      subst h
      rcases hopened with hnil | ⟨hhead, -⟩
      · cases hnil
      · cases hhead
        exact absurd hc (by decide)
  | bracket hb _ =>
      subst h
      rcases hopened with hnil | ⟨-, hclose⟩
      · have hempty :=
          (List.append_eq_nil_iff.mp (List.append_eq_nil_iff.mp hnil).1).1
        obtain ⟨body, rfl⟩ := head_of_bracket hb
        cases hempty
      · exact absurd
          (List.mem_append_left
            _ (List.mem_append_left _ (close_mem_of_bracket hb)))
          hclose

/-- A text divides in one way into complete atoms and an unfinished bracket
expression. -/
theorem Atoms.division_unique {s' opened opened' : List Char}
    {atoms' : List Atom} (hs : Atoms s atoms) (hs' : Atoms s' atoms')
    (hopened : Unfinished opened) (hopened' : Unfinished opened')
    (h : s ++ opened = s' ++ opened') :
    atoms = atoms' ∧ opened = opened' := by
  induction hs generalizing s' atoms' with
  | nil =>
      obtain ⟨rfl, rfl⟩ := atoms_of_unfinished hopened hs' h
      exact ⟨rfl, h⟩
  | operator hc hrest ih =>
      cases hs' with
      | nil =>
          exact nomatch
            (atoms_of_unfinished hopened' (.operator hc hrest) h.symm).1
      | operator hc' hrest' => exact ih hrest' (List.cons.inj h).2
      | char hc' hrest' =>
          obtain ⟨rfl, -⟩ := List.cons.inj h
          rw [isLiteral_operator hc] at hc'
          cases hc'
      | bracket hb' hrest' =>
          obtain ⟨body, rfl⟩ := head_of_bracket hb'
          obtain ⟨rfl, -⟩ := List.cons.inj h
          exact absurd hc (by decide)
  | char hc hrest ih =>
      cases hs' with
      | nil =>
          exact nomatch (atoms_of_unfinished hopened' (.char hc hrest) h.symm).1
      | operator hc' hrest' =>
          obtain ⟨rfl, -⟩ := List.cons.inj h
          rw [isLiteral_operator hc'] at hc
          cases hc
      | char hc' hrest' =>
          obtain ⟨rfl, htail⟩ := List.cons.inj h
          obtain ⟨rfl, rfl⟩ := ih hrest' htail
          exact ⟨rfl, rfl⟩
      | bracket hb' hrest' =>
          obtain ⟨body, rfl⟩ := head_of_bracket hb'
          obtain ⟨rfl, -⟩ := List.cons.inj h
          exact absurd hc (by decide)
  | bracket hb hrest ih =>
      cases hs' with
      | nil =>
          obtain ⟨hempty, -⟩ :=
            atoms_of_unfinished hopened' (.bracket hb hrest) h.symm
          obtain ⟨body, rfl⟩ := head_of_bracket hb
          cases hempty
      | operator hc' hrest' =>
          obtain ⟨body, rfl⟩ := head_of_bracket hb
          obtain ⟨rfl, -⟩ := List.cons.inj h
          exact absurd hc' (by decide)
      | char hc' hrest' =>
          obtain ⟨body, rfl⟩ := head_of_bracket hb
          obtain ⟨rfl, -⟩ := List.cons.inj h
          exact absurd hc' (by decide)
      | bracket hb' hrest' =>
          rw [List.append_assoc, List.append_assoc] at h
          obtain ⟨rfl, htail⟩ := bracket_unique hb hb' h
          obtain ⟨rfl, rfl⟩ := ih hrest' htail
          exact ⟨rfl, rfl⟩

end PatternSyntax.Grammar
