import PatternSyntax.Proofs.Simulation

/-!
# The verdict on a whole pattern

At the top nothing is open, so a parenthesis that the outermost regex leaves
behind closes nothing, and the recogniser rejects it for the same reason as the
parser. The two marks make no exception: they are literals to the recogniser,
and it accepts them as the parser does, though for another tree.

Which symbols a parser makes, and what became of them, does not show in its
errors.
-/

namespace PatternSyntax.Parser

open Scanner

variable {τ σ : Type}

/-- The error in which a parse ended, if it ended in one. -/
def errorOf {α : Type} (outcome : Outcome τ α) : Option ParseError :=
  match outcome.1 with
  | .ok _ => none
  | .error e => some e

theorem errorOf_eq_none_iff {α : Type} {outcome : Outcome τ α} :
    errorOf outcome = none ↔ ∃ value, outcome.1 = .ok value := by
  rw [errorOf]
  cases outcome.1 with
  | ok value => exact ⟨fun _ => ⟨value, rfl⟩, fun _ => rfl⟩
  | error e =>
      constructor
      · intro h
        cases h
      · rintro ⟨value, h⟩
        cases h

theorem errorOf_eq_some_iff {α : Type} {outcome : Outcome τ α}
    {e : ParseError} :
    errorOf outcome = some e ↔ outcome.1 = .error e := by
  rw [errorOf]
  cases outcome.1 with
  | ok value =>
      constructor
      · intro h
        cases h
      · intro h
        cases h
  | error e' =>
      constructor
      · intro h
        rw [Option.some.inj h]
      · intro h
        rw [Except.error.inj h]

theorem firstError_mark {limit : UInt32} {c : Char} (hc : isLiteral c = true) :
    firstError limit .term 0 (Input.ofList [c]) = none := by
  have hp : (Input.ofList [c]).peek = some c := rfl
  have hs : step limit .term 0 c = .go .ended 0 := by
    rw [step, beginTerm, if_pos hc]
  rw [firstError_go hp hs]
  exact firstError_end rfl

/-- A parse fails exactly if the recogniser finds an error, and with that
error. -/
theorem errorOf_parseList (p : Parser τ σ) (pattern : List Char) (made : τ) :
    errorOf (p.parseList pattern made) =
      firstError p.nestLimit .term 0 (Input.ofList pattern) := by
  rw [parseList]
  split
  · next hword =>
      subst hword
      exact (firstError_mark (by decide)).symm
  · split
    · next hset =>
        subst hset
        exact (firstError_mark (by decide)).symm
    · have hr := regex_tracks p (State.ofList pattern) made
      split
      · next whole made₁ hregex =>
          rw [hregex] at hr
          obtain ⟨hfound, hfollow, hopen⟩ := hr
          have hgroups : whole.next.openGroups.toNat = 0 := by
            rw [hopen]
            rfl
          rw [show firstError p.nestLimit .term 0 (Input.ofList pattern) =
            errorFrom p.nestLimit .starred whole.next from hfound]
          split
          · next hend =>
              rw [errorFrom, firstError_end hend, hgroups]
              rfl
          · next c hp =>
              have hc := hfollow c hp
              subst hc
              exact (errorFrom_afterTerm hp (by decide) (by decide)
                (by omega)).symm
      · next e made₁ hregex =>
          rw [hregex] at hr
          exact hr.symm

/-- The recogniser accepts what the parser accepts, and it rejects every other
pattern for the same cause and at the same place. -/
theorem verdict_eq_parse (p : Parser τ σ) (pattern : String) (made : τ) :
    verdict p.nestLimit pattern.toList =
      (errorOf (p.parse pattern made)).map fun e => (e.cause, e.position) := by
  rw [parse, errorOf_parseList]
  exact scan_eq_firstError p.nestLimit .term 0 (Input.ofList pattern.toList)

/-- Two faults, of which the one that is met first decides. -/
example : verdict 0 "[z-a](".toList = some (.descendingRange 'z' 'a', 4) := by
  decide

end PatternSyntax.Parser
