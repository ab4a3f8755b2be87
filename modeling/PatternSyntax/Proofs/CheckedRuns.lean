import PatternSyntax.Parser.Checked
import PatternSyntax.Proofs.Progress

/-!
# No check of a run ever fails

From every state within the limit, the checked parser has the same outcome as
the parser itself, be it a tree or an error. So all checks pass on the way to
either of them, also on the way to an error deep inside some groups, where
nothing is left in order any more.

Each check looks at one state, and what it asks for is known from the production
that led there. That production has restored the number of open groups and has
stopped in front of what may follow it. The arithmetic needs no more than the
limit itself, which is a word. A group is opened below the limit only, so there
is always a word for one more. Its content ends inside as many groups as it
began in, so there is always one to leave.
-/

namespace PatternSyntax.Parser

variable {τ σ : Type}

theorem guard_bind {α : Type} {c : Prop} [Decidable c] (h : c)
    (next : Option α) :
    (do guard c; next) = next := by
  rw [(Option.guard_eq_some' ()).mpr h]
  rfl

/-- Below the limit, the number of open groups has a successor that is still a
word. -/
theorem succ_lt_size {groups limit : UInt32} (h : groups < limit) :
    groups.toNat + 1 < UInt32.size :=
  Nat.lt_of_le_of_lt (UInt32.lt_iff_toNat_lt.mp h) limit.toNat_lt_size

theorem enter_openGroups_le {st : State} {limit : UInt32}
    (h : st.openGroups < limit) :
    st.enter.openGroups ≤ limit := by
  have hlt := UInt32.lt_iff_toNat_lt.mp h
  rw [UInt32.le_iff_toNat_le, enter_openGroups_toNat h]
  exact hlt

theorem checkedCloseGroup_eq_some {limit : UInt32} {st start : State}
    {content : Read start (Tree σ)} (hroom : st.openGroups < limit)
    (hopen : content.next.openGroups = st.enter.openGroups)
    (hfollow : FollowsRegex content.next.peek) :
    checkedCloseGroup limit content = some (closeGroup content) := by
  have hwithin : content.next.openGroups ≤ limit :=
    hopen ▸ enter_openGroups_le hroom
  have hpos : 0 < content.next.openGroups.toNat := by
    rw [hopen, enter_openGroups_toNat hroom]
    exact Nat.succ_pos _
  have hleave : content.next.leave.openGroups ≤ limit := by
    rw [leave_openGroups hopen]
    exact UInt32.le_of_lt hroom
  have hnext : content.next.peek.all (· == ')') = true := by
    rcases followsRegex_iff.mp hfollow with hp | hp <;> rw [hp] <;> rfl
  rw [checkedCloseGroup, guard_bind hwithin, guard_bind hpos, guard_bind hleave,
    guard_bind hnext]
  rfl

theorem factor_eq_endFactor (p : Parser τ σ) (st : State) (made : τ) :
    p.factor st made =
      match p.base st made with
      | (.ok b, made) => endFactor b made
      | (.error e, made) => (.error e, made) := by
  rw [factor]
  rcases p.base st made with ⟨e | b, made₁⟩
  · rfl
  · dsimp only
    rw [endFactor]
    split
    · next hp => rw [hp]
    · next c hp => simp only [hp]

mutual

theorem checkedRegex_eq_some {p : Parser τ σ} {st : State} (made : τ)
    (h : st.openGroups ≤ p.nestLimit) :
    p.checkedRegex st made = some (p.regex st made) := by
  rw [checkedRegex, regex, guard_bind h]
  split
  · rw [checkedBranch_eq_some made h, Option.bind_eq_bind, Option.bind_some]
    rcases hb : p.branch st made with ⟨e | first, made₁⟩
    · rfl
    · have progress := first.progress
      have hopen := (branch_restores h hb).openGroups
      exact checkedBranches_eq_some made₁ (hopen ▸ h) (branch_stops hb)
  · rfl
termination_by (st.unread, 3)

/-- The last arm of the loop is not reached, because the loop stands behind a
branch. -/
theorem checkedBranches_eq_some {p : Parser τ σ} {start st : State}
    {progress : st.unread < start.unread} {earlier : List (Tree σ)}
    {last : Tree σ} (made : τ) (h : st.openGroups ≤ p.nestLimit)
    (hfollow : FollowsBranch st.peek) :
    p.checkedBranches start st progress earlier last made =
      some (p.branches start st progress earlier last made) := by
  rw [branches]
  split
  · next hp =>
      rw [checkedBranches, guard_bind h]
      split
      · rfl
      · next c hp' => cases hp.symm.trans hp'
  · next c hp =>
      rw [checkedBranches, guard_bind h]
      split
      · next hp' => cases hp.symm.trans hp'
      · next c' hp' =>
          cases hp.symm.trans hp'
          split
          · have bar := st.advance_lt hp
            have hadvance : st.advance.openGroups ≤ p.nestLimit := h
            dsimp only
            rw [checkedBranch_eq_some made hadvance, Option.bind_eq_bind,
              Option.bind_some]
            rcases hb : p.branch st.advance made with ⟨e | b, made₁⟩
            · rfl
            · have branch := b.progress
              have hopen := (branch_restores hadvance hb).openGroups
              exact checkedBranches_eq_some made₁ (hopen ▸ h) (branch_stops hb)
          · next hbar =>
              have hclose : c = ')' := (hfollow c hp).resolve_right hbar
              rw [if_pos hclose, if_pos hclose]
              rfl
termination_by (st.unread, 0)

theorem checkedBranch_eq_some {p : Parser τ σ} {st : State} (made : τ)
    (h : st.openGroups ≤ p.nestLimit) :
    p.checkedBranch st made = some (p.branch st made) := by
  rw [checkedBranch, branch, guard_bind h]
  split
  · rw [checkedFactor_eq_some made h, Option.bind_eq_bind, Option.bind_some]
    rcases hf : p.factor st made with ⟨e | first, made₁⟩
    · rfl
    · have progress := first.progress
      have hopen := (factor_restores h hf).openGroups
      exact checkedFactors_eq_some made₁ (hopen ▸ h)
  · rfl
termination_by (st.unread, 2)

theorem checkedFactors_eq_some {p : Parser τ σ} {start st : State}
    {progress : st.unread < start.unread} {earlier : List (Tree σ)}
    {last : Tree σ} (made : τ) (h : st.openGroups ≤ p.nestLimit) :
    p.checkedFactors start st progress earlier last made =
      some (p.factors start st progress earlier last made) := by
  rw [factors]
  split
  · next hp =>
      rw [checkedFactors, guard_bind h, hp]
      rfl
  · next c hp =>
      rw [checkedFactors, guard_bind h, hp]
      dsimp only
      split
      · rw [checkedFactor_eq_some made h, Option.bind_eq_bind, Option.bind_some]
        rcases hf : p.factor st made with ⟨e | f, made₁⟩
        · rfl
        · have factor := f.progress
          have hopen := (factor_restores h hf).openGroups
          exact checkedFactors_eq_some made₁ (hopen ▸ h)
      · split <;> rfl
termination_by (st.unread, 2)

theorem checkedFactor_eq_some {p : Parser τ σ} {st : State} (made : τ)
    (h : st.openGroups ≤ p.nestLimit) :
    p.checkedFactor st made = some (p.factor st made) := by
  rw [checkedFactor, factor_eq_endFactor, guard_bind h,
    checkedBase_eq_some made h, Option.bind_eq_bind, Option.bind_some]
  rcases hb : p.base st made with ⟨e | b, made₁⟩
  · rfl
  · have hopen := (base_restores h hb).openGroups
    dsimp only
    rw [guard_bind (hopen ▸ h)]
    rfl
termination_by (st.unread, 1)

theorem checkedBase_eq_some {p : Parser τ σ} {st : State} (made : τ)
    (h : st.openGroups ≤ p.nestLimit) :
    p.checkedBase st made = some (p.base st made) := by
  rw [base]
  split
  · next hp =>
      rw [checkedBase, guard_bind h]
      split
      · rfl
      · next c hp' => cases hp.symm.trans hp'
  · next c hp =>
      rw [checkedBase, guard_bind h]
      split
      · next hp' => cases hp.symm.trans hp'
      · next c' hp' =>
          cases hp.symm.trans hp'
          split
          · split
            · next hroom =>
                have enter := st.enter_lt hp
                have hwithin := enter_openGroups_le hroom
                rw [guard_bind (succ_lt_size hroom)]
                dsimp only
                rw [checkedRegex_eq_some made hwithin, Option.bind_eq_bind,
                  Option.bind_some]
                rcases hx : p.regex st.enter made with ⟨e | content, made₁⟩
                · rfl
                · have hopen := (regex_restores hwithin hx).openGroups
                  dsimp only
                  rw [checkedCloseGroup_eq_some hroom hopen (regex_stops hx),
                    Option.bind_eq_bind, Option.bind_some]
                  cases closeGroup content <;> rfl
            · rfl
          · split
            · rfl
            · split <;> rfl
termination_by (st.unread, 0)

end

/-- No check fails in the reading of a whole pattern, where no group is open at
first. -/
theorem checkedParseList_eq_some (p : Parser τ σ) (pattern : List Char)
    (made : τ) :
    p.checkedParseList pattern made = some (p.parseList pattern made) := by
  have hopen : (State.ofList pattern).openGroups ≤ p.nestLimit :=
    UInt32.le_iff_toNat_le.mpr (Nat.zero_le _)
  rw [checkedParseList, parseList]
  split
  · rfl
  · split
    · rfl
    · rw [checkedRegex_eq_some made hopen, Option.bind_eq_bind,
        Option.bind_some]
      rcases p.regex (State.ofList pattern) made with ⟨e | whole, made₁⟩
      · rfl
      · dsimp only
        cases whole.next.peek <;> rfl

/-! ## What the productions keep to -/

/-- What all productions keep to from the state `st` on. -/
structure Contract (p : Parser τ σ) (st : State) (made : τ) : Prop where
  /-- Anything may stand behind a base. -/
  base : ∀ r made', p.base st made = (.ok r, made') → st.Restores r.next ∧
    ∃ s, st.input.Leads s r.next.input ∧ ∀ (st' : State) (tail : List Char),
      st'.openGroups = st.openGroups → st'.input.rest = s ++ tail →
      Returns (p.base st' made) (r.value, made') tail st'.openGroups
  /-- A factor without a star is a base, and not everything may stand behind
  it. -/
  factor : ∀ r made', p.factor st made = (.ok r, made') → st.Restores r.next ∧
    ∃ b : Read st (Tree σ), p.base st made = (.ok b, made') ∧
      ((r = b ∧ r.next.peek ≠ some ']' ∧ r.next.peek ≠ some '^' ∧
        r.next.peek ≠ some '*') ∨
        (b.next.peek = some '*' ∧ r.next = b.next.advance ∧
          r.value = .star b.value))
  branch : ∀ r made', p.branch st made = (.ok r, made') → st.Restores r.next ∧
    (r.next.peek = none ∨ r.next.peek = some ')' ∨ r.next.peek = some '|')
  regex : ∀ r made', p.regex st made = (.ok r, made') → st.Restores r.next ∧
    (r.next.peek = none ∨ r.next.peek = some ')')
  branches : TurnsBy p.branches .alt st made (p.nextBranch st made)
  factors : TurnsBy p.factors .concat st made (p.nextFactor st made)
  items : ∀ i, Bracket.TurnsAt i
  /-- Whether it succeeds or not, a production passes all checks on its way. -/
  checks : p.checkedBase st made = some (p.base st made) ∧
    p.checkedFactor st made = some (p.factor st made) ∧
    p.checkedBranch st made = some (p.branch st made) ∧
    p.checkedRegex st made = some (p.regex st made)

/-- From every state within the limit, a production that succeeds has read
something, is inside as many groups again and stops in front of what may follow
it. A turn of a loop reads something or is the last. Whether a run succeeds or
not, it never has more groups open than the limit allows, raises and lowers
their number exactly, never finds a character behind a branch that cannot follow
one, and misses the end of a group at the end of the pattern only. -/
theorem productions_keep_contract {p : Parser τ σ} {st : State}
    (h : st.openGroups ≤ p.nestLimit) (made : τ) : p.Contract st made where
  base _ _ hr := ⟨base_restores h hr, base_ignores_tail h hr⟩
  factor r made' hr := by
    refine ⟨factor_restores h hr, ?_⟩
    obtain ⟨b, hb, ⟨hsame, hfollow⟩ | hstar⟩ := factor_eq_base_or_star hr
    · exact ⟨b, hb, .inl ⟨hsame, followsFactor_iff.mp hfollow⟩⟩
    · exact ⟨b, hb, .inr hstar⟩
  branch _ _ hr :=
    ⟨branch_restores h hr, followsBranch_iff.mp (branch_stops hr)⟩
  regex _ _ hr := ⟨regex_restores h hr, followsRegex_iff.mp (regex_stops hr)⟩
  branches := branches_turnsBy h made
  factors := factors_turnsBy h made
  items := Bracket.readItems_turnsAt
  checks := ⟨checkedBase_eq_some made h, checkedFactor_eq_some made h,
    checkedBranch_eq_some made h, checkedRegex_eq_some made h⟩

/-- A group that raises the number of open groups to the largest word there is,
read in front of the end of another one. -/
theorem productions_keep_contract_at_largest_word :
    let p : Parser (Array Atom) Atom := ⟨.recorder, 4294967295⟩
    let st : State := ⟨Input.ofList "(a)*b)".toList, 4294967294⟩
    st.openGroups ≤ p.nestLimit ∧ p.Contract st #[] ∧
      ∃ r made', p.regex st #[] = (.ok r, made') ∧ r.next.input.rest = [')'] ∧
        r.next.openGroups = 4294967294 ∧
        p.checkedRegex st #[] = some (.ok r, made') := by
  intro p st
  have h : st.openGroups ≤ p.nestLimit := by decide
  have hcontract : p.Contract st #[] := productions_keep_contract h #[]
  have hbase : ∀ {n : Nat} {c : Char}, isLiteral c = true →
      Grammar.Base n [c] (.literal (.char c)) := .literal
  have hgroup : Grammar.Base 1 ('(' :: (['a'] ++ [')'])) _ :=
    .group (.last (.last (.once (hbase (by decide)))))
  have hregex : Grammar.Regex 1 "(a)*b".toList _ :=
    .last (.more (.star hgroup) (.last (.once (hbase (by decide)))))
  have hreturns : Returns (p.regex st #[]) (p.factory.makeTree _ #[])
      [')'] st.openGroups :=
    regex_complete hregex #[] rfl (by decide) followsRegex_close
  obtain ⟨r, hr, -, hrest, hopen⟩ := hreturns
  refine ⟨h, hcontract, r, _, hr, hrest, hopen, ?_⟩
  rw [hcontract.checks.2.2.2, hr]

end PatternSyntax.Parser
