import PatternSyntax.Parser.Pattern
import PatternSyntax.Proofs.BracketReading
import PatternSyntax.Proofs.TreeMaking

/-!
# What the parser reads is derivable

A production that succeeds has read a text which the grammar derives, and its
tree is the derived one with the symbols made. The proof follows the
productions, one theorem for each. The two loops are the cases with an
invariant in them: what the loop has taken last, together with all that it
still takes, is derivable by itself, and the operands taken before that are
joined onto the result.

The grammar counts the groups that may still be opened and the parser those that
are open, so the two numbers always add up to the limit.
-/

namespace PatternSyntax.Parser

variable {τ σ : Type}

/-- From `st` on, a text was read that `derives` a tree, and the symbols of that
tree were made. The groups that were open are open again. -/
def Reads (f : SymbolFactory τ σ) (derives : List Char → Tree Atom → Prop)
    (st : State) (made : τ) (value : Tree σ) (next : State) (made' : τ) :
    Prop :=
  ∃ s t, derives s t ∧ st.input.rest = s ++ next.input.rest ∧
    f.makeTree t made = (value, made') ∧ next.openGroups = st.openGroups

theorem Reads.mono {f : SymbolFactory τ σ}
    {derives derives' : List Char → Tree Atom → Prop}
    (hderives : ∀ s t, derives s t → derives' s t) {st next : State}
    {made made' : τ} {value : Tree σ}
    (h : Reads f derives st made value next made') :
    Reads f derives' st made value next made' := by
  obtain ⟨s, t, hs, hrest⟩ := h
  exact ⟨s, t, hderives s t hs, hrest⟩

/-- A loop that began with the operand of text `s₀` as its last has read what
can follow it. Together they derive a tree, whose symbols were made from `made₀`
on, and which is joined onto the operands before. -/
def Extends (f : SymbolFactory τ σ) (derives : List Char → Tree Atom → Prop)
    (join : Tree σ → Tree σ → Tree σ) (earlier : List (Tree σ)) (s₀ : List Char)
    (made₀ : τ) (st : State) (value : Tree σ) (next : State) (made' : τ) :
    Prop :=
  ∃ s t v, derives (s₀ ++ s) t ∧ st.input.rest = s ++ next.input.rest ∧
    f.makeTree t made₀ = (v, made') ∧ value = joinRight join earlier v ∧
    next.openGroups = st.openGroups

section Loops

variable {f : SymbolFactory τ σ} {derives : List Char → Tree Atom → Prop}
  {join : Tree σ → Tree σ → Tree σ} {earlier : List (Tree σ)} {s₀ : List Char}
  {made₀ made made' : τ}

/-- The loop ends where no operand follows. -/
theorem Extends.stop {t₀ : Tree Atom} {last : Tree σ} (hs₀ : derives s₀ t₀)
    (hmake₀ : f.makeTree t₀ made₀ = (last, made)) (st : State) :
    Extends f derives join earlier s₀ made₀ st (joinRight join earlier last) st
      made := by
  refine ⟨[], t₀, last, ?_, rfl, hmake₀, rfl, rfl⟩
  rw [List.append_nil]
  exact hs₀

/-- The first operand and all that the loop reads behind it. -/
theorem Extends.reads {start st next : State} {value : Tree σ}
    (h : Extends f derives join [] s₀ made₀ st value next made')
    (hrest₀ : start.input.rest = s₀ ++ st.input.rest)
    (hopen₀ : st.openGroups = start.openGroups) :
    Reads f derives start made₀ value next made' := by
  obtain ⟨s, t, v, hs, hrest, hmake, hv, hopen⟩ := h
  refine ⟨s₀ ++ s, t, hs, ?_, ?_, hopen.trans hopen₀⟩
  · rw [hrest₀, hrest, List.append_assoc]
  · rw [hmake, hv]
    rfl

end Loops

/-! ## The bases that are one atom -/

theorem literal_sound {p : Parser τ σ} {st : State} {c : Char}
    {h : st.peek = some c} {made made' : τ} {r : Read st (Tree σ)}
    (hc : isLiteral c = true) (n : Nat)
    (hr : p.literal st c h made = (.ok r, made')) :
    Reads p.factory (Grammar.Base n) st made r.value r.next made' := by
  rw [literal] at hr
  cases hr
  exact ⟨[c], _, .literal hc, Input.rest_of_peek h,
    SymbolFactory.makeTree_literal rfl, rfl⟩

theorem bracket_sound {p : Parser τ σ} {st : State} {h : st.peek = some '['}
    {made made' : τ} {r : Read st (Tree σ)} (n : Nat)
    (hr : p.bracket st h made = (.ok r, made')) :
    Reads p.factory (Grammar.Base n) st made r.value r.next made' := by
  rw [bracket] at hr
  split at hr
  · next b body hbody =>
      obtain ⟨s, hs, hrest⟩ := Bracket.readBody_sound hbody
      dsimp only at hr
      split at hr
      · next hclose =>
          cases hr
          refine ⟨_, _, .bracket hs, ?_,
            SymbolFactory.makeTree_literal rfl, rfl⟩
          have hopen : st.input.rest = '[' :: st.input.advance.rest :=
            Input.rest_of_peek h
          rw [hopen, hrest, Input.rest_of_peek hclose]
          simp
      · cases hr
  · cases hr

/-! ## The productions -/

/-- Opening a group leaves one group less to open. -/
theorem enter_openGroups_toNat {st : State} {limit : UInt32}
    (h : st.openGroups < limit) :
    st.enter.openGroups.toNat = st.openGroups.toNat + 1 := by
  have hlt := UInt32.lt_iff_toNat_lt.mp h
  have hsize := limit.toNat_lt_size
  show (st.openGroups + 1).toNat = st.openGroups.toNat + 1
  rw [UInt32.toNat_add, UInt32.toNat_one]
  exact Nat.mod_eq_of_lt (by simp only [UInt32.size] at hsize; omega)

theorem leave_openGroups {st next : State}
    (h : next.openGroups = st.enter.openGroups) :
    next.leave.openGroups = st.openGroups := by
  show next.openGroups - 1 = st.openGroups
  rw [h]
  exact UInt32.add_sub_cancel _ _

theorem closeGroup_sound {f : SymbolFactory τ σ} {m : Nat} {st start : State}
    {content group : Read start (Tree σ)} {made made' : τ}
    (hp : st.peek = some '(')
    (hcontent : Reads f (Grammar.Regex m) st.enter made content.value
      content.next made')
    (hclose : closeGroup content = .ok group) :
    Reads f (Grammar.Base (m + 1)) st made group.value group.next made' := by
  obtain ⟨s, t, hs, hrest, hmake, hopen⟩ := hcontent
  rw [closeGroup] at hclose
  split at hclose
  · next hparen =>
      cases hclose
      refine ⟨_, t, .group hs, ?_, hmake, leave_openGroups hopen⟩
      have hbefore : st.input.rest = '(' :: st.enter.input.rest :=
        Input.rest_of_peek hp
      have hbehind : content.next.input.rest =
          ')' :: content.next.input.advance.rest :=
        Input.rest_of_peek hparen
      rw [hbefore, hrest, hbehind]
      simp
  · cases hclose

mutual

theorem regex_sound {p : Parser τ σ} {n : Nat} {st : State} {made made' : τ}
    {r : Read st (Tree σ)} (hn : st.openGroups.toNat + n = p.nestLimit.toNat)
    (h : p.regex st made = (.ok r, made')) :
    Reads p.factory (Grammar.Regex n) st made r.value r.next made' := by
  rw [regex] at h
  split at h
  · split at h
    · next first made₁ hb =>
        have progress := first.progress
        obtain ⟨s₀, t₀, hs₀, hrest₀, hmake₀, hopen₀⟩ := branch_sound hn hb
        exact (branches_sound (hopen₀ ▸ hn) hs₀ hmake₀ h).reads hrest₀ hopen₀
    · cases h
  · cases h
termination_by (st.unread, 3)

/-- The branch read last, and the text that the loop reads after it, make a
regex. Its tree is joined onto the branches read earlier. -/
theorem branches_sound {p : Parser τ σ} {n : Nat} {start st : State}
    {progress : st.unread < start.unread} {earlier : List (Tree σ)}
    {last : Tree σ} {made₀ made made' : τ} {r : Read start (Tree σ)}
    {s₀ : List Char} {t₀ : Tree Atom}
    (hn : st.openGroups.toNat + n = p.nestLimit.toNat)
    (hs₀ : Grammar.Branch n s₀ t₀)
    (hmake₀ : p.factory.makeTree t₀ made₀ = (last, made))
    (h : p.branches start st progress earlier last made = (.ok r, made')) :
    Extends p.factory (Grammar.Regex n) .alt earlier s₀ made₀ st r.value r.next
      made' := by
  rw [branches] at h
  split at h
  · cases h
    exact .stop (.last hs₀) hmake₀ st
  · next c hp =>
      split at h
      · next hbar =>
          subst hbar
          have bar := st.advance_lt hp
          have hadvance : st.advance.openGroups.toNat + n = p.nestLimit.toNat :=
            hn
          dsimp only at h
          split at h
          · next b made₁ hb =>
              have branch := b.progress
              obtain ⟨s₁, t₁, hs₁, hrest₁, hmake₁, hopen₁⟩ :=
                branch_sound hadvance hb
              obtain ⟨s, t, v, hs, hrest, hmake, hv, hopen⟩ :=
                branches_sound (hopen₁ ▸ hn) hs₁ hmake₁ h
              have hbefore : st.input.rest = '|' :: st.advance.input.rest :=
                Input.rest_of_peek hp
              refine ⟨'|' :: (s₁ ++ s), .alt t₀ t, .alt last v,
                .more hs₀ hs, ?_, SymbolFactory.makeTree_alt hmake₀ hmake, hv,
                hopen.trans hopen₁⟩
              rw [hbefore, hrest₁, hrest, List.cons_append, List.append_assoc]
          · cases h
      · split at h
        · cases h
          exact .stop (.last hs₀) hmake₀ st
        · cases h
termination_by (st.unread, 0)

theorem branch_sound {p : Parser τ σ} {n : Nat} {st : State} {made made' : τ}
    {r : Read st (Tree σ)} (hn : st.openGroups.toNat + n = p.nestLimit.toNat)
    (h : p.branch st made = (.ok r, made')) :
    Reads p.factory (Grammar.Branch n) st made r.value r.next made' := by
  rw [branch] at h
  split at h
  · split at h
    · next first made₁ hf =>
        have progress := first.progress
        obtain ⟨s₀, t₀, hs₀, hrest₀, hmake₀, hopen₀⟩ := factor_sound hn hf
        exact (factors_sound (hopen₀ ▸ hn) hs₀ hmake₀ h).reads hrest₀ hopen₀
    · cases h
  · cases h
termination_by (st.unread, 2)

/-- The same for the factors of a branch, which stand without a sign between
them. -/
theorem factors_sound {p : Parser τ σ} {n : Nat} {start st : State}
    {progress : st.unread < start.unread} {earlier : List (Tree σ)}
    {last : Tree σ} {made₀ made made' : τ} {r : Read start (Tree σ)}
    {s₀ : List Char} {t₀ : Tree Atom}
    (hn : st.openGroups.toNat + n = p.nestLimit.toNat)
    (hs₀ : Grammar.Factor n s₀ t₀)
    (hmake₀ : p.factory.makeTree t₀ made₀ = (last, made))
    (h : p.factors start st progress earlier last made = (.ok r, made')) :
    Extends p.factory (Grammar.Branch n) .concat earlier s₀ made₀ st r.value
      r.next made' := by
  rw [factors] at h
  split at h
  · cases h
    exact .stop (.last hs₀) hmake₀ st
  · next c hp =>
      split at h
      · split at h
        · next f made₁ hf =>
            have factor := f.progress
            obtain ⟨s₁, t₁, hs₁, hrest₁, hmake₁, hopen₁⟩ := factor_sound hn hf
            obtain ⟨s, t, v, hs, hrest, hmake, hv, hopen⟩ :=
              factors_sound (hopen₁ ▸ hn) hs₁ hmake₁ h
            refine ⟨s₁ ++ s, .concat t₀ t, .concat last v, .more hs₀ hs, ?_,
              SymbolFactory.makeTree_concat hmake₀ hmake, hv,
              hopen.trans hopen₁⟩
            rw [hrest₁, hrest, List.append_assoc]
        · cases h
      · split at h
        · cases h
          exact .stop (.last hs₀) hmake₀ st
        · cases h
termination_by (st.unread, 2)

theorem factor_sound {p : Parser τ σ} {n : Nat} {st : State} {made made' : τ}
    {r : Read st (Tree σ)} (hn : st.openGroups.toNat + n = p.nestLimit.toNat)
    (h : p.factor st made = (.ok r, made')) :
    Reads p.factory (Grammar.Factor n) st made r.value r.next made' := by
  rw [factor] at h
  split at h
  · next b made₁ hb =>
      have hbase := base_sound hn hb
      split at h
      · cases h
        exact hbase.mono fun _ _ => .once
      · next c hp =>
          split at h
          · next hstar =>
              subst hstar
              cases h
              obtain ⟨s, t, hs, hrest, hmake, hopen⟩ := hbase
              refine ⟨s ++ ['*'], .star t, .star hs, ?_,
                SymbolFactory.makeTree_star hmake, hopen⟩
              rw [hrest, show b.next.input.rest =
                '*' :: b.next.advance.input.rest from
                Input.rest_of_peek hp, List.append_assoc]
              rfl
          · split at h
            · cases h
              exact hbase.mono fun _ _ => .once
            · cases h
  · cases h
termination_by (st.unread, 1)

theorem base_sound {p : Parser τ σ} {n : Nat} {st : State} {made made' : τ}
    {r : Read st (Tree σ)} (hn : st.openGroups.toNat + n = p.nestLimit.toNat)
    (h : p.base st made = (.ok r, made')) :
    Reads p.factory (Grammar.Base n) st made r.value r.next made' := by
  rw [base] at h
  split at h
  · cases h
  · next c hp =>
      split at h
      · next hgroup =>
          subst hgroup
          split at h
          · next hroom =>
              have enter := st.enter_lt hp
              have hopen₁ := enter_openGroups_toNat hroom
              have hlt := UInt32.lt_iff_toNat_lt.mp hroom
              obtain ⟨m, rfl⟩ : ∃ m, n = m + 1 := ⟨n - 1, by omega⟩
              split at h
              · next content made₁ hx =>
                  have hcontent := regex_sound (n := m) (by omega) hx
                  split at h
                  · next group hclose =>
                      have hgroup := closeGroup_sound hp hcontent hclose
                      cases h
                      exact hgroup
                  · cases h
              · cases h
          · cases h
      · split at h
        · next hbracket => exact bracket_sound n h
        · split at h
          · next hlit => exact literal_sound hlit n h
          · cases h
termination_by (st.unread, 0)

end

end PatternSyntax.Parser
