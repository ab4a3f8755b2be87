import PatternSyntax.Grammar

/-!
# What begins a term and what may follow it

One character decides every step of a parse, so two kinds of facts carry all
arguments about it: with which characters the text of a production can begin,
and which characters can stand behind it. The sets behind the productions shrink
on the way up. A factor may be followed by whatever begins the next one, a
branch no longer by that, and a regex not by a bar either. The end of the
pattern is in all of them.
-/

namespace PatternSyntax

/-- May stand behind a factor that is not starred. -/
def FollowsFactor (next : Option Char) : Prop :=
  ∀ c, next = some c → startsTerm c = true ∨ c = ')' ∨ c = '|'

/-- May stand behind a branch. -/
def FollowsBranch (next : Option Char) : Prop :=
  ∀ c, next = some c → c = ')' ∨ c = '|'

/-- May stand behind a regex. -/
def FollowsRegex (next : Option Char) : Prop :=
  ∀ c, next = some c → c = ')'

theorem followsFactor_iff {next : Option Char} :
    FollowsFactor next ↔
      next ≠ some ']' ∧ next ≠ some '^' ∧ next ≠ some '*' := by
  cases next with
  | none => simp [FollowsFactor]
  | some c =>
      simp only [FollowsFactor, Option.some.injEq, forall_eq', startsTerm_iff,
        ne_eq]
      grind

theorem followsBranch_iff {next : Option Char} :
    FollowsBranch next ↔ next = none ∨ next = some ')' ∨ next = some '|' := by
  cases next <;> simp [FollowsBranch]

theorem followsRegex_iff {next : Option Char} :
    FollowsRegex next ↔ next = none ∨ next = some ')' := by
  cases next <;> simp [FollowsRegex]

theorem FollowsBranch.factor {next : Option Char} (h : FollowsBranch next) :
    FollowsFactor next :=
  fun c hc => Or.inr (h c hc)

theorem FollowsRegex.branch {next : Option Char} (h : FollowsRegex next) :
    FollowsBranch next :=
  fun c hc => Or.inl (h c hc)

theorem followsRegex_none : FollowsRegex none :=
  fun _ hc => by cases hc

theorem followsRegex_close : FollowsRegex (some ')') :=
  fun _ hc => (Option.some.inj hc).symm

theorem followsBranch_bar : FollowsBranch (some '|') :=
  fun _ hc => Or.inr (Option.some.inj hc).symm

namespace Grammar

/-- The text begins with a character that begins a term. -/
def BeginsTerm (s : List Char) : Prop :=
  ∃ c rest, s = c :: rest ∧ startsTerm c = true

theorem BeginsTerm.append {s : List Char} (h : BeginsTerm s)
    (rest : List Char) :
    BeginsTerm (s ++ rest) := by
  obtain ⟨c, s, rfl, hc⟩ := h
  exact ⟨c, s ++ rest, rfl, hc⟩

theorem BeginsTerm.followsFactor {s : List Char} (h : BeginsTerm s) :
    FollowsFactor s.head? := by
  obtain ⟨c, s, rfl, hc⟩ := h
  intro d hd
  cases hd
  exact Or.inl hc

theorem BeginsTerm.head?_append {s : List Char} (h : BeginsTerm s)
    (rest : List Char) :
    (s ++ rest).head? = s.head? := by
  obtain ⟨c, s, rfl, -⟩ := h
  rfl

theorem BeginsTerm.length_pos {s : List Char} (h : BeginsTerm s) :
    0 < s.length := by
  obtain ⟨c, s, rfl, -⟩ := h
  exact Nat.succ_pos _

theorem beginsTerm_of_base {n : Nat} {s : List Char} {t : Tree Atom}
    (h : Base n s t) :
    BeginsTerm s := by
  cases h with
  | @literal _ c hc => exact ⟨c, [], rfl, by rw [startsTerm, hc]; rfl⟩
  | group _ => exact ⟨'(', _, rfl, by decide⟩
  | bracket hb =>
      cases hb with
      | plain _ => exact ⟨'[', _, rfl, by decide⟩
      | negated _ => exact ⟨'[', _, rfl, by decide⟩

theorem beginsTerm_of_factor {n : Nat} {s : List Char} {t : Tree Atom}
    (h : Factor n s t) :
    BeginsTerm s := by
  cases h with
  | once hb => exact beginsTerm_of_base hb
  | star hb => exact (beginsTerm_of_base hb).append _

theorem beginsTerm_of_branch {n : Nat} {s : List Char} {t : Tree Atom}
    (h : Branch n s t) :
    BeginsTerm s := by
  cases h with
  | last hf => exact beginsTerm_of_factor hf
  | more hf _ => exact (beginsTerm_of_factor hf).append _

theorem beginsTerm_of_regex {n : Nat} {s : List Char} {t : Tree Atom}
    (h : Regex n s t) :
    BeginsTerm s := by
  cases h with
  | last hb => exact beginsTerm_of_branch hb
  | more hb _ => exact (beginsTerm_of_branch hb).append _

end Grammar

end PatternSyntax
