import PatternSyntax.Proofs.Completeness
import PatternSyntax.Proofs.SymbolRequests

/-!
# What a production leaves behind

A production that succeeds has read at least one character, is inside as many
groups as before, and stops in front of a character that may follow it. Two of
these are known already. The account of its requests says which text it has
read, and the derivation of that text says that all groups are closed again.
That the text is not empty is part of the result itself.

Where a production stops is decided by one lookahead each. A branch and a regex
end where their loops end, and a factor without a star looks once more at what
comes behind its base. A base looks at nothing behind it. So it is not enough to
say which characters may come there: whatever the rest of the pattern is, the
base is read the same.

A loop is taken apart into its turns. A turn reads an operand, and then the loop
goes on behind that, or it reads none, and then the loop is over. So a loop has
no more turns than there are characters to read.
-/

namespace PatternSyntax

/-- From the one input to the other, at least one character was read. -/
def Input.Consumes (i j : Input) : Prop :=
  ∃ s, s ≠ [] ∧ i.Leads s j

theorem Input.Leads.consumes {i j : Input} {s : List Char} (h : i.Leads s j)
    (hlt : j.rest.length < i.rest.length) : i.Consumes j := by
  refine ⟨s, ?_, h⟩
  rintro rfl
  rw [h.1] at hlt
  exact absurd hlt (Nat.lt_irrefl _)

/-- From the one state to the other, at least one character was read, and every
group that was entered was left again. -/
structure State.Restores (st next : State) : Prop where
  consumes : st.input.Consumes next.input
  openGroups : next.openGroups = st.openGroups

/-! ## The turns of the loop over items -/

namespace Bracket

/-- What one turn of the loop over items reads, if it does not end the loop. -/
def nextItem (i : Input) : Except ParseError (Option (BracketItem × Input)) :=
  match i.peek with
  | some lo => if isLiteral lo then (readItem i lo).map some else .ok none
  | none => .ok none

theorem nextItem_stop {i : Input} (h : EndsItems i.peek) :
    nextItem i = .ok none := by
  rw [nextItem]
  split
  · next lo hp => rw [if_neg (by rw [h lo hp]; exact Bool.false_ne_true)]
  · rfl

theorem nextItem_literal {i : Input} {lo : Char} (hp : i.peek = some lo)
    (hlo : isLiteral lo = true) : nextItem i = (readItem i lo).map some := by
  rw [nextItem, hp]
  exact if_pos hlo

/-- The loop over items goes from turn to turn. If the turn at `i` reads an
item, the loop goes on behind it, further on. Otherwise it ends at `i`, or it
fails as the turn does. -/
def TurnsAt (i : Input) : Prop :=
  ∀ (start : Input) (le : i.rest.length ≤ start.rest.length)
    (earlier : List BracketItem),
    match nextItem i with
    | .ok (some (item, j)) =>
      i.Consumes j ∧ ∃ le' : j.rest.length ≤ start.rest.length,
        readItems start i le earlier = readItems start j le' (item :: earlier)
    | .ok none => readItems start i le earlier = .ok (earlier.reverse, ⟨i, le⟩)
    | .error e => readItems start i le earlier = .error e

theorem readItems_turnsAt (i : Input) : TurnsAt i := by
  intro start le earlier
  rcases endsItems_or_literal i.peek with hend | ⟨lo, hp, hlo⟩
  · rw [nextItem_stop hend]
    exact readItems_stop hend
  · cases hr : readItem i lo with
    | error e =>
        rw [nextItem_literal hp hlo, hr]
        exact readItems_error hp hlo hr
    | ok read =>
        obtain ⟨item, j⟩ := read
        obtain ⟨s, hs, -⟩ := readItem_inside hp hlo hr
        rw [nextItem_literal hp hlo, hr]
        exact ⟨hs.consumes (readItem_lt hp hr), _, readItems_item hp hlo hr⟩

end Bracket

namespace Parser

variable {τ σ : Type} {p : Parser τ σ} {st : State} {made made' : τ}

/-! ## What is read, and the groups that are open again -/

theorem exists_room {limit : UInt32} (h : st.openGroups ≤ limit) :
    ∃ n, st.openGroups.toNat + n = limit.toNat :=
  ⟨_, Nat.add_sub_of_le (UInt32.le_iff_toNat_le.mp h)⟩

theorem Reads.restores {f : SymbolFactory τ σ}
    {derives : List Char → Tree Atom → Prop} {r : Read st (Tree σ)}
    (h : Reads f derives st made r.value r.next made')
    (hasks : Asks f st.input made (.ok r, made')) : st.Restores r.next := by
  obtain ⟨-, -, -, -, -, hopen⟩ := h
  obtain ⟨s, -, -, hlead, -⟩ := hasks
  exact ⟨hlead.consumes r.progress, hopen⟩

section Productions

variable {r : Read st (Tree σ)} (hst : st.openGroups ≤ p.nestLimit)

include hst

theorem base_restores (h : p.base st made = (.ok r, made')) :
    st.Restores r.next := by
  obtain ⟨n, hn⟩ := exists_room hst
  exact (base_sound hn h).restores (h ▸ base_asks p st made)

theorem factor_restores (h : p.factor st made = (.ok r, made')) :
    st.Restores r.next := by
  obtain ⟨n, hn⟩ := exists_room hst
  exact (factor_sound hn h).restores (h ▸ factor_asks p st made)

theorem branch_restores (h : p.branch st made = (.ok r, made')) :
    st.Restores r.next := by
  obtain ⟨n, hn⟩ := exists_room hst
  exact (branch_sound hn h).restores (h ▸ branch_asks p st made)

theorem regex_restores (h : p.regex st made = (.ok r, made')) :
    st.Restores r.next := by
  obtain ⟨n, hn⟩ := exists_room hst
  exact (regex_sound hn h).restores (h ▸ regex_asks p st made)

/-- A base is read the same, whatever stands behind it. -/
theorem base_ignores_tail (h : p.base st made = (.ok r, made')) :
    ∃ s, st.input.Leads s r.next.input ∧ ∀ (st' : State) (tail : List Char),
      st'.openGroups = st.openGroups → st'.input.rest = s ++ tail →
      Returns (p.base st' made) (r.value, made') tail st'.openGroups := by
  obtain ⟨n, hn⟩ := exists_room hst
  obtain ⟨s, t, hs, hrest, hmake, -⟩ := base_sound hn h
  have hasks : Asks p.factory st.input made (.ok r, made') :=
    h ▸ base_asks p st made
  obtain ⟨s', -, -, hlead, -⟩ := hasks
  have hsame : s' = s := List.append_cancel_right (hlead.1.symm.trans hrest)
  subst hsame
  refine ⟨s', hlead, fun st' tail hopen htail => ?_⟩
  have hreturns := base_complete hs made htail (hopen ▸ Nat.le_of_eq hn)
  rwa [hmake] at hreturns

end Productions

/-! ## The turns of the other two loops -/

/-- What one turn of the loop over branches reads, if it does not end the
loop. -/
def nextBranch (p : Parser τ σ) (st : State) (made : τ) :
    Outcome τ (Option (Read st (Tree σ))) :=
  match st.peek with
  | none => (.ok none, made)
  | some c =>
    if c = '|' then
      match p.branch st.advance made with
      | (.ok b, made) =>
        (.ok (some ⟨b.value, b.next,
          Nat.lt_of_lt_of_le b.progress st.advance_le⟩), made)
      | (.error e, made) => (.error e, made)
    else if c = ')' then (.ok none, made)
    else (.error st.input.unexpected, made)

/-- What one turn of the loop over factors reads, if it does not end the
loop. -/
def nextFactor (p : Parser τ σ) (st : State) (made : τ) :
    Outcome τ (Option (Read st (Tree σ))) :=
  match st.peek with
  | none => (.ok none, made)
  | some c =>
    if startsTerm c then
      match p.factor st made with
      | (.ok f, made) => (.ok (some f), made)
      | (.error e, made) => (.error e, made)
    else if c = ')' ∨ c = '|' then (.ok none, made)
    else (.error st.input.unexpected, made)

/-- The loop goes from turn to turn. If the turn at `st` reads an operand, the
loop goes on behind it, further on and inside as many groups. Otherwise it ends
at `st` and joins what it has, or it fails as the turn does. -/
structure TurnsBy
    (loop : (start st : State) → st.unread < start.unread → List (Tree σ) →
      Tree σ → τ → Outcome τ (Read start (Tree σ)))
    (join : Tree σ → Tree σ → Tree σ) (st : State) (made : τ)
    (turn : Outcome τ (Option (Read st (Tree σ)))) : Prop where
  loop_eq : ∀ start progress earlier last,
    loop start st progress earlier last made =
      match turn with
      | (.ok (some operand), made') =>
        loop start operand.next (Nat.lt_trans operand.progress progress)
          (last :: earlier) operand.value made'
      | (.ok none, made') =>
        (.ok ⟨joinRight join earlier last, st, progress⟩, made')
      | (.error e, made') => (.error e, made')
  restores : ∀ operand made', turn = (.ok (some operand), made') →
    st.Restores operand.next

theorem branches_turnsBy (hst : st.openGroups ≤ p.nestLimit) (made : τ) :
    TurnsBy p.branches .alt st made (p.nextBranch st made) where
  restores operand made' h := by
    rw [nextBranch] at h
    split at h
    · cases h
    · next c hp =>
        split at h
        · next hbar =>
            split at h
            · next b made₁ hb =>
                cases h
                have hadvance : st.advance.openGroups ≤ p.nestLimit := hst
                obtain ⟨⟨s, -, hlead⟩, hopen⟩ := branch_restores hadvance hb
                have hreads := (Input.leads_advance hp).trans hlead
                exact ⟨⟨_, List.cons_ne_nil _ _, hreads⟩, hopen⟩
            · cases h
        · split at h <;> cases h
  loop_eq start progress earlier last := by
    rw [branches]
    split
    · next hp => rw [nextBranch, hp]
    · next c hp =>
        simp only [nextBranch, hp]
        split
        · rcases p.branch st.advance made with ⟨e | b, made₁⟩ <;> rfl
        · split <;> rfl

theorem factors_turnsBy (hst : st.openGroups ≤ p.nestLimit) (made : τ) :
    TurnsBy p.factors .concat st made (p.nextFactor st made) where
  restores operand made' h := by
    rw [nextFactor] at h
    split at h
    · cases h
    · split at h
      · split at h
        · next f made₁ hf =>
            cases h
            exact factor_restores hst hf
        · cases h
      · split at h <;> cases h
  loop_eq start progress earlier last := by
    rw [factors]
    split
    · next hp => rw [nextFactor, hp]
    · next c hp =>
        simp only [nextFactor, hp]
        split
        · rcases p.factor st made with ⟨e | f, made₁⟩ <;> rfl
        · split <;> rfl

/-! ## Where a production stops -/

/-- A factor is its base, with a star if one comes behind it. Without a star, it
stops in front of what may follow a factor. -/
theorem factor_eq_base_or_star {r : Read st (Tree σ)}
    (h : p.factor st made = (.ok r, made')) :
    ∃ b : Read st (Tree σ), p.base st made = (.ok b, made') ∧
      ((r = b ∧ FollowsFactor r.next.peek) ∨
        (b.next.peek = some '*' ∧ r.next = b.next.advance ∧
          r.value = .star b.value)) := by
  rw [factor] at h
  split at h
  · next b made₁ hb =>
      split at h
      · next hp =>
          cases h
          exact ⟨r, hb, .inl ⟨rfl, fun c hc => by cases hp.symm.trans hc⟩⟩
      · next c hp =>
          split at h
          · next hstar =>
              subst hstar
              cases h
              exact ⟨b, hb, .inr ⟨hp, rfl, rfl⟩⟩
          · split at h
            · next hfollow =>
                cases h
                refine ⟨r, hb, .inl ⟨rfl, fun d hd => ?_⟩⟩
                cases hp.symm.trans hd
                exact hfollow
            · cases h
  · cases h

theorem factors_stops {start st : State} {progress : st.unread < start.unread}
    {earlier : List (Tree σ)} {last : Tree σ} {made made' : τ}
    {r : Read start (Tree σ)}
    (h : p.factors start st progress earlier last made = (.ok r, made')) :
    FollowsBranch r.next.peek := by
  rw [factors] at h
  split at h
  · next hp =>
      cases h
      exact followsBranch_iff.mpr (.inl hp)
  · next c hp =>
      split at h
      · split at h
        · next f made₁ hf =>
            have factor := f.progress
            exact factors_stops h
        · cases h
      · split at h
        · next hends =>
            cases h
            intro d hd
            cases hp.symm.trans hd
            exact hends
        · cases h
termination_by st.unread

theorem branch_stops {r : Read st (Tree σ)}
    (h : p.branch st made = (.ok r, made')) :
    FollowsBranch r.next.peek := by
  rw [branch] at h
  split at h
  · split at h
    · exact factors_stops h
    · cases h
  · cases h

theorem branches_stops {start st : State} {progress : st.unread < start.unread}
    {earlier : List (Tree σ)} {last : Tree σ} {made made' : τ}
    {r : Read start (Tree σ)}
    (h : p.branches start st progress earlier last made = (.ok r, made')) :
    FollowsRegex r.next.peek := by
  rw [branches] at h
  split at h
  · next hp =>
      cases h
      exact followsRegex_iff.mpr (.inl hp)
  · next c hp =>
      split at h
      · have bar := st.advance_lt hp
        dsimp only at h
        split at h
        · next b made₁ hb =>
            have branch := b.progress
            exact branches_stops h
        · cases h
      · split at h
        · next hclose =>
            cases h
            exact followsRegex_iff.mpr (.inr (hclose ▸ hp))
        · cases h
termination_by st.unread

theorem regex_stops {r : Read st (Tree σ)}
    (h : p.regex st made = (.ok r, made')) :
    FollowsRegex r.next.peek := by
  rw [regex] at h
  split at h
  · split at h
    · exact branches_stops h
    · cases h
  · cases h

end Parser

end PatternSyntax
