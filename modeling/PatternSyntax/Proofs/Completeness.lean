import PatternSyntax.Parser.Pattern
import PatternSyntax.Proofs.BracketReading
import PatternSyntax.Proofs.Lookahead
import PatternSyntax.Proofs.Soundness

/-!
# What is derivable is read

The text of a production is read to its end wherever a character that may follow
it comes next, whatever else is behind that character, and the tree is the
derived one with its symbols made. The proof follows the derivation. A
derivation unrolls both repetitions from the left, and so do the loops: what a
derivation still has to its right is what the loop still has to read.

Together with soundness this makes the grammar exact, text by text and tree by
tree.
-/

namespace PatternSyntax.Parser

variable {τ σ : Type}

/-- A production ends with this tree and this state of the factory, leaves the
text `tail` unread, and is inside as many groups as `open`. -/
def Returns {start : State} (outcome : Outcome τ (Read start (Tree σ)))
    (result : Tree σ × τ) (tail : List Char) (groups : UInt32) : Prop :=
  ∃ r : Read start (Tree σ), outcome = (.ok r, result.2) ∧ r.value = result.1 ∧
    r.next.input.rest = tail ∧ r.next.openGroups = groups

/-! ## The equations of the loops -/

theorem branches_stop {p : Parser τ σ} {start st : State}
    {progress : st.unread < start.unread} {earlier : List (Tree σ)}
    {last : Tree σ} {made : τ} (h : FollowsRegex st.peek) :
    p.branches start st progress earlier last made =
      (.ok ⟨joinRight .alt earlier last, st, progress⟩, made) := by
  rw [branches]
  split
  · rfl
  · next c hp =>
      have hc := h c hp
      subst hc
      rw [if_neg (by decide), if_pos rfl]

theorem branches_bar {p : Parser τ σ} {start st : State}
    {progress : st.unread < start.unread} {earlier : List (Tree σ)}
    {last : Tree σ} {made made' : τ} {b : Read st.advance (Tree σ)}
    (hp : st.peek = some '|') (hb : p.branch st.advance made = (.ok b, made')) :
    p.branches start st progress earlier last made =
      p.branches start b.next
        (Nat.lt_trans b.progress (Nat.lt_trans (State.advance_lt hp) progress))
        (last :: earlier) b.value made' := by
  rw [branches]
  split
  · next hp' => cases hp.symm.trans hp'
  · next c hp' =>
      cases hp.symm.trans hp'
      rw [if_pos rfl]
      dsimp only
      rw [hb]

theorem factors_stop {p : Parser τ σ} {start st : State}
    {progress : st.unread < start.unread} {earlier : List (Tree σ)}
    {last : Tree σ} {made : τ} (h : FollowsBranch st.peek) :
    p.factors start st progress earlier last made =
      (.ok ⟨joinRight .concat earlier last, st, progress⟩, made) := by
  rw [factors]
  split
  · rfl
  · next c hp =>
      have hc := h c hp
      rw [if_neg (by rcases hc with rfl | rfl <;> decide), if_pos hc]

theorem factors_more {p : Parser τ σ} {start st : State}
    {progress : st.unread < start.unread} {earlier : List (Tree σ)}
    {last : Tree σ} {made made' : τ} {f : Read st (Tree σ)} {c : Char}
    (hp : st.peek = some c) (hc : startsTerm c = true)
    (hf : p.factor st made = (.ok f, made')) :
    p.factors start st progress earlier last made =
      p.factors start f.next (Nat.lt_trans f.progress progress)
        (last :: earlier) f.value made' := by
  rw [factors, hp]
  dsimp only
  rw [if_pos hc, hf]

/-! ## The productions -/

/-- A text that is still to be read begins the rest, so its first character
comes next. -/
theorem peek_of_beginsTerm {st : State} {s tail : List Char}
    (hs : Grammar.BeginsTerm s) (h : st.input.rest = s ++ tail) :
    ∃ c, st.peek = some c ∧ startsTerm c = true := by
  obtain ⟨c, s, rfl, hc⟩ := hs
  exact ⟨c, Input.peek_of_rest h, hc⟩

theorem any_startsTerm {st : State} {s tail : List Char}
    (hs : Grammar.BeginsTerm s) (h : st.input.rest = s ++ tail) :
    st.peek.any startsTerm = true := by
  obtain ⟨c, hp, hc⟩ := peek_of_beginsTerm hs h
  rw [hp]
  exact hc

theorem peek_eq_head? {st : State} {tail : List Char}
    (h : st.input.rest = tail) :
    st.peek = tail.head? := by
  rw [State.peek, Input.peek, h]

theorem bracket_complete {p : Parser τ σ} {st : State} {s tail : List Char}
    {b : Bracket} (hs : Grammar.IsBracket s b) {hp : st.peek = some '['}
    (made : τ) (h : st.input.rest = s ++ tail) :
    Returns (p.bracket st hp made)
      (p.factory.makeTree (.literal (.bracket b)) made) tail st.openGroups := by
  have hrest : '[' :: st.input.advance.rest = s ++ tail :=
    (Input.rest_of_peek hp).symm.trans h
  obtain ⟨body, hbody, htail⟩ := Bracket.readBody_complete hs hrest
  rw [bracket, hbody]
  dsimp only
  rw [if_pos (Input.peek_of_rest htail)]
  exact ⟨_, rfl, rfl, Input.advance_rest htail, rfl⟩

mutual

theorem regex_complete {p : Parser τ σ} {n : Nat} {s : List Char}
    {t : Tree Atom} (hs : Grammar.Regex n s t) {st : State} {tail : List Char}
    (made : τ) (h : st.input.rest = s ++ tail)
    (hn : st.openGroups.toNat + n ≤ p.nestLimit.toNat)
    (hfollow : FollowsRegex tail.head?) :
    Returns (p.regex st made) (p.factory.makeTree t made) tail
      st.openGroups := by
  rw [regex, if_pos (any_startsTerm (Grammar.beginsTerm_of_regex hs) h)]
  match hs with
  | .last hb =>
      obtain ⟨b, hbranch, hvalue, hrest, hopen⟩ :=
        branch_complete hb made h hn hfollow.branch
      rw [hbranch]
      dsimp only
      rw [branches_stop (peek_eq_head? hrest ▸ hfollow)]
      exact ⟨_, rfl, hvalue, hrest, hopen⟩
  | @Grammar.Regex.more _ s₀ rest t₀ u hb hr =>
      rw [List.append_assoc] at h
      obtain ⟨b, hbranch, hvalue, hrest, hopen⟩ :=
        branch_complete hb made h hn followsBranch_bar
      rw [hbranch]
      dsimp only
      have hmore := branches_complete hr (p.factory.makeTree t₀ made).2 hrest
        (hopen ▸ hn) hfollow st b.progress [] b.value
      rw [hvalue, hopen] at hmore
      rw [hvalue]
      exact hmore

/-- The loop, in front of the bar before the branches that are still to come. -/
theorem branches_complete {p : Parser τ σ} {n : Nat} {s : List Char}
    {t : Tree Atom} (hs : Grammar.Regex n s t) {st : State} {tail : List Char}
    (made : τ) (h : st.input.rest = '|' :: (s ++ tail))
    (hn : st.openGroups.toNat + n ≤ p.nestLimit.toNat)
    (hfollow : FollowsRegex tail.head?) (start : State)
    (progress : st.unread < start.unread) (earlier : List (Tree σ))
    (last : Tree σ) :
    Returns (p.branches start st progress earlier last made)
      (joinRight .alt earlier (.alt last (p.factory.makeTree t made).1),
        (p.factory.makeTree t made).2) tail st.openGroups := by
  have hbar : st.peek = some '|' := Input.peek_of_rest h
  have hadvance : st.advance.input.rest = s ++ tail := Input.advance_rest h
  match hs with
  | .last hb =>
      obtain ⟨b, hbranch, hvalue, hrest, hopen⟩ :=
        branch_complete hb made hadvance hn hfollow.branch
      rw [branches_bar hbar hbranch,
        branches_stop (peek_eq_head? hrest ▸ hfollow), hvalue]
      exact ⟨_, rfl, rfl, hrest, hopen⟩
  | @Grammar.Regex.more _ s₀ rest t₀ u hb hr =>
      rw [List.append_assoc] at hadvance
      obtain ⟨b, hbranch, hvalue, hrest, hopen⟩ :=
        branch_complete hb made hadvance hn followsBranch_bar
      have hmore := branches_complete hr (p.factory.makeTree t₀ made).2 hrest
        (hopen ▸ hn) hfollow
        start (Nat.lt_trans b.progress
          (Nat.lt_trans (State.advance_lt hbar) progress))
        (last :: earlier) b.value
      rw [hvalue, hopen] at hmore
      rw [branches_bar hbar hbranch, hvalue]
      exact hmore

theorem branch_complete {p : Parser τ σ} {n : Nat} {s : List Char}
    {t : Tree Atom} (hs : Grammar.Branch n s t) {st : State} {tail : List Char}
    (made : τ) (h : st.input.rest = s ++ tail)
    (hn : st.openGroups.toNat + n ≤ p.nestLimit.toNat)
    (hfollow : FollowsBranch tail.head?) :
    Returns (p.branch st made) (p.factory.makeTree t made) tail
      st.openGroups := by
  rw [branch, if_pos (any_startsTerm (Grammar.beginsTerm_of_branch hs) h)]
  match hs with
  | .last hf =>
      obtain ⟨f, hfactor, hvalue, hrest, hopen⟩ :=
        factor_complete hf made h hn hfollow.factor
      rw [hfactor]
      dsimp only
      rw [factors_stop (peek_eq_head? hrest ▸ hfollow)]
      exact ⟨_, rfl, hvalue, hrest, hopen⟩
  | @Grammar.Branch.more _ s₀ rest t₀ u hf hb =>
      rw [List.append_assoc] at h
      have hnext := (Grammar.beginsTerm_of_branch hb).append tail
      obtain ⟨f, hfactor, hvalue, hrest, hopen⟩ :=
        factor_complete hf made h hn hnext.followsFactor
      rw [hfactor]
      dsimp only
      have hmore := factors_complete hb (p.factory.makeTree t₀ made).2 hrest
        (hopen ▸ hn) hfollow st f.progress [] f.value
      rw [hvalue, hopen] at hmore
      rw [hvalue]
      exact hmore

/-- The loop, in front of the factors that are still to come. -/
theorem factors_complete {p : Parser τ σ} {n : Nat} {s : List Char}
    {t : Tree Atom} (hs : Grammar.Branch n s t) {st : State} {tail : List Char}
    (made : τ) (h : st.input.rest = s ++ tail)
    (hn : st.openGroups.toNat + n ≤ p.nestLimit.toNat)
    (hfollow : FollowsBranch tail.head?) (start : State)
    (progress : st.unread < start.unread) (earlier : List (Tree σ))
    (last : Tree σ) :
    Returns (p.factors start st progress earlier last made)
      (joinRight .concat earlier (.concat last (p.factory.makeTree t made).1),
        (p.factory.makeTree t made).2) tail st.openGroups := by
  obtain ⟨c, hp, hc⟩ := peek_of_beginsTerm (Grammar.beginsTerm_of_branch hs) h
  match hs with
  | .last hf =>
      obtain ⟨f, hfactor, hvalue, hrest, hopen⟩ :=
        factor_complete hf made h hn hfollow.factor
      rw [factors_more hp hc hfactor,
        factors_stop (peek_eq_head? hrest ▸ hfollow), hvalue]
      exact ⟨_, rfl, rfl, hrest, hopen⟩
  | @Grammar.Branch.more _ s₀ rest t₀ u hf hb =>
      rw [List.append_assoc] at h
      have hnext := (Grammar.beginsTerm_of_branch hb).append tail
      obtain ⟨f, hfactor, hvalue, hrest, hopen⟩ :=
        factor_complete hf made h hn hnext.followsFactor
      have hmore := factors_complete hb (p.factory.makeTree t₀ made).2 hrest
        (hopen ▸ hn) hfollow
        start (Nat.lt_trans f.progress progress) (last :: earlier) f.value
      rw [hvalue, hopen] at hmore
      rw [factors_more hp hc hfactor, hvalue]
      exact hmore

theorem factor_complete {p : Parser τ σ} {n : Nat} {s : List Char}
    {t : Tree Atom} (hs : Grammar.Factor n s t) {st : State} {tail : List Char}
    (made : τ) (h : st.input.rest = s ++ tail)
    (hn : st.openGroups.toNat + n ≤ p.nestLimit.toNat)
    (hfollow : FollowsFactor tail.head?) :
    Returns (p.factor st made) (p.factory.makeTree t made) tail
      st.openGroups := by
  rw [factor]
  match hs with
  | .once hb =>
      obtain ⟨b, hbase, hvalue, hrest, hopen⟩ := base_complete hb made h hn
      rw [hbase]
      dsimp only
      split
      · exact ⟨b, rfl, hvalue, hrest, hopen⟩
      · next c hp =>
          have hnext := hfollow c (peek_eq_head? hrest ▸ hp)
          have hstar : c ≠ '*' := by
            rintro rfl
            exact absurd hnext (by decide)
          rw [if_neg hstar, if_pos hnext]
          exact ⟨b, rfl, hvalue, hrest, hopen⟩
  | @Grammar.Factor.star _ s₀ t₀ hb =>
      rw [List.append_assoc] at h
      obtain ⟨b, hbase, hvalue, hrest, hopen⟩ := base_complete hb made h hn
      rw [hbase]
      dsimp only
      have hstar : b.next.peek = some '*' := Input.peek_of_rest hrest
      split
      · next hp => cases hstar.symm.trans hp
      · next c hp =>
          cases hstar.symm.trans hp
          rw [if_pos rfl]
          exact ⟨_, rfl, by rw [hvalue]; rfl, Input.advance_rest hrest, hopen⟩

theorem base_complete {p : Parser τ σ} {n : Nat} {s : List Char} {t : Tree Atom}
    (hs : Grammar.Base n s t) {st : State} {tail : List Char} (made : τ)
    (h : st.input.rest = s ++ tail)
    (hn : st.openGroups.toNat + n ≤ p.nestLimit.toNat) :
    Returns (p.base st made) (p.factory.makeTree t made) tail
      st.openGroups := by
  obtain ⟨c, hp, hc⟩ := peek_of_beginsTerm (Grammar.beginsTerm_of_base hs) h
  rw [base]
  split
  · next hp' => cases hp.symm.trans hp'
  · next c' hp' =>
      cases hp.symm.trans hp'
      match hs with
      | .literal hlit =>
          cases (Input.peek_of_rest h).symm.trans hp
          obtain ⟨-, -, -, hopens, -, hopensBracket, -⟩ := isLiteral_iff.mp hlit
          rw [if_neg hopens, dif_neg hopensBracket, if_pos hlit]
          exact ⟨_, rfl, rfl, Input.advance_rest h, rfl⟩
      | @Grammar.Base.group m s₀ _ hr =>
          cases (Input.peek_of_rest h).symm.trans hp
          have hroom : st.openGroups < p.nestLimit :=
            UInt32.lt_iff_toNat_lt.mpr (by omega)
          have hopens := enter_openGroups_toNat hroom
          have hdeeper : st.enter.openGroups.toNat + m ≤ p.nestLimit.toNat := by
            omega
          have hrest : st.enter.input.rest = s₀ ++ ')' :: tail := by
            rw [State.enter_input, Input.advance_rest h]
            simp
          rw [if_pos rfl, if_pos hroom]
          dsimp only
          obtain ⟨content, hregex, hvalue, htail, hopen⟩ :=
            regex_complete hr made hrest hdeeper followsRegex_close
          have hclose : content.next.leave.peek = some ')' :=
            Input.peek_of_rest htail
          rw [hregex]
          dsimp only
          rw [closeGroup, if_pos hclose]
          exact ⟨_, rfl, hvalue, Input.advance_rest htail,
            leave_openGroups hopen⟩
      | @Grammar.Base.bracket _ _ b hb =>
          have hopens : c = '[' := by
            cases hb with
            | plain _ =>
                exact Option.some.inj (hp.symm.trans (Input.peek_of_rest h))
            | negated _ =>
                exact Option.some.inj (hp.symm.trans (Input.peek_of_rest h))
          subst hopens
          rw [if_neg (by decide), dif_pos rfl]
          exact bracket_complete hb made h

end

end PatternSyntax.Parser
