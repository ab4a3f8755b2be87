import PatternSyntax.Proofs.ItemSpelling
import PatternSyntax.Proofs.SymbolRequests

/-!
# A pattern without its operators

The operators of a pattern say how its leaves are combined, and every other
character belongs to a leaf. So what the operators leave of a pattern is the
text of the leaves of its tree, from left to right. No leaf is dropped, repeated
or moved when the operands of a repetition are joined from the last one on, and
none is spelled otherwise than in the pattern.

Two facts about brackets are behind it. No operator stands in a bracket
expression, and a bracket expression that was read still has its spelling,
dashes included.
-/

namespace PatternSyntax

namespace Grammar

variable {s : List Char} {atoms : List Atom}

/-- The text without the characters that combine atoms. -/
def withoutOperators (s : List Char) : List Char :=
  s.filter fun c => c ∉ operators

theorem withoutOperators_append (s rest : List Char) :
    withoutOperators (s ++ rest) =
      withoutOperators s ++ withoutOperators rest :=
  List.filter_append s rest

theorem withoutOperators_cons_operator {c : Char} (hc : c ∈ operators)
    (rest : List Char) :
    withoutOperators (c :: rest) = withoutOperators rest := by
  rw [withoutOperators, List.filter_cons_of_neg (by simpa using hc),
    withoutOperators]

theorem withoutOperators_eq_self (h : ∀ c ∈ s, c ∉ operators) :
    withoutOperators s = s := by
  refine List.filter_eq_self.mpr fun c hc => ?_
  exact decide_eq_true (h c hc)

theorem not_operator_of_literal {c : Char} (hc : isLiteral c = true) :
    c ∉ operators := by
  intro hoperator
  rw [isLiteral_operator hoperator] at hc
  cases hc

theorem not_operator_of_bracket {b : Bracket} (hb : IsBracket s b) :
    ∀ c ∈ s, c ∉ operators := by
  intro c hc hoperator
  have hcaret : c ≠ '^' := by
    rintro rfl
    exact absurd hoperator (by decide)
  have hends : ['[', ']'].count c = 0 := by
    refine List.count_eq_zero.mpr fun hends => ?_
    simp only [operators, List.mem_cons, List.not_mem_nil,
      or_false] at hoperator hends
    rcases hends with rfl | rfl
    all_goals exact absurd hoperator (by decide)
  have hcount := count_bracket hb (isLiteral_operator hoperator) hcaret
  exact List.count_eq_zero.mp (hcount.trans hends) hc

/-- What the operators leave of a text is the spelling of its atoms. -/
theorem Atoms.withoutOperators_eq (h : Atoms s atoms) :
    withoutOperators s = atoms.flatMap Atom.spelling := by
  induction h with
  | nil => rfl
  | operator hc _ ih => rw [withoutOperators_cons_operator hc, ih]
  | @char c rest atoms hc _ ih =>
      have hself : withoutOperators [c] = [c] :=
        withoutOperators_eq_self
          (List.forall_mem_singleton.mpr (not_operator_of_literal hc))
      rw [← List.singleton_append, withoutOperators_append, hself, ih]
      rfl
  | bracket hb _ ih =>
      rw [withoutOperators_append,
        withoutOperators_eq_self (not_operator_of_bracket hb), ih,
        hb.eq_spelling]
      rfl

end Grammar

namespace Parser

open Grammar

/-- What the operators leave of a pattern is the spelling of the leaves of its
tree. The marks are the exception, as they have no leaf. -/
theorem withoutOperators_eq_leaves {limit : UInt32} {pattern : String}
    {log : Array Atom} {t : Tree Atom}
    (hword : pattern.toList ≠ [emptyWordMark])
    (hset : pattern.toList ≠ [emptySetMark])
    (h : ((⟨.recorder, limit⟩ : Parser (Array Atom) Atom).parse pattern log).1 =
      .ok t) :
    withoutOperators pattern.toList = t.leaves.flatMap Atom.spelling := by
  have hleaves := leaves_of_pattern ((parse_recorder_eq_ok_iff ..).mp h)
  rw [if_neg (not_or.mpr ⟨hword, hset⟩)] at hleaves
  exact hleaves.withoutOperators_eq

/-- With groups, all operators, and dashes in each of their roles. -/
theorem withoutOperators_eq_leaves_of_dashes :
    let b : Bracket := ⟨true, [.range '-' '-', .single 'z'], by decide⟩
    let t : Tree Atom := .concat
      (.star (.alt (.literal (.char 'ε')) (.literal (.bracket b))))
      (.literal (.char '-'))
    ((⟨.recorder, 1⟩ : Parser (Array Atom) Atom).parse "(ε|[^---z])*-"
      #[]).1 = .ok t ∧
    withoutOperators "(ε|[^---z])*-".toList =
      t.leaves.flatMap Atom.spelling := by
  intro b t
  have hb : IsBracket b.spelling b :=
    isBracket_spelling (items_of_keepDashes (by decide) (by decide))
  have hgroup : Base 1 ('(' :: (['ε'] ++ '|' :: b.spelling ++ [')'])) _ :=
    .group (.more (.last (.once (.literal (by decide))))
      (.last (.last (.once (.bracket hb)))))
  have hparse :
      ((⟨.recorder, 1⟩ : Parser (Array Atom) Atom).parse "(ε|[^---z])*-"
        #[]).1 = .ok t :=
    (parse_recorder_eq_ok_iff ..).mpr (.regex (by decide) (by decide)
      (.last (.more (.star hgroup) (.last (.once (.literal (by decide)))))))
  exact ⟨hparse, withoutOperators_eq_leaves (by decide) (by decide) hparse⟩

end Parser

end PatternSyntax
