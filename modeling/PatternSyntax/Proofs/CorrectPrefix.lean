import PatternSyntax.Proofs.Recognition

/-!
# A rejected pattern is wrong at the reported place, and nowhere before

Up to the place of an error a pattern can still be mended: what stands before it
begins some pattern that is accepted under the same limit. The error itself is
decided by the character at that place, so no continuation avoids it or changes
anything about it.

Both facts are about the recogniser, whose memory is a mode and a number. The
first holds because every mode, inside any number of groups, has a text that
ends the pattern well: it completes the bracket or the term, and closes the
groups. Only the bound of a range makes a demand, which is met by repeating the
lower bound, and that bound is a literal since the mode is entered by one. The
second is an induction along the pattern, with nothing in it but that one step
looks at one character.
-/

namespace PatternSyntax.Scanner

variable {limit : UInt32} {mode : Mode} {groups consumed offset : Nat}
  {rest : List Char} {e : ParseError}

/-! ## Where the error lies -/

theorem firstError_cons_go {c : Char} {mode' : Mode} {groups' : Nat}
    (hs : step limit mode groups c = .go mode' groups') :
    firstError limit mode groups ⟨c :: rest, consumed, offset⟩ =
      firstError limit mode' groups'
        ⟨rest, consumed + 1, offset + c.utf8Size⟩ :=
  firstError_go rfl hs

theorem firstError_cons_stop {c : Char} {cause : Cause}
    (hs : step limit mode groups c = .stop cause) :
    firstError limit mode groups ⟨c :: rest, consumed, offset⟩ =
      some (errorAt ⟨c :: rest, consumed, offset⟩ cause) :=
  firstError_stop rfl hs

theorem firstError_position
    (h : firstError limit mode groups ⟨rest, consumed, offset⟩ = some e) :
    consumed < e.position ∧ e.position ≤ consumed + rest.length + 1 := by
  induction rest generalizing mode groups consumed offset with
  | nil =>
      rw [firstError_end rfl] at h
      obtain ⟨cause, -, rfl⟩ := Option.map_eq_some_iff.mp h
      rw [errorAt_position]
      exact ⟨Nat.lt_succ_self _, Nat.le_refl _⟩
  | cons c rest ih =>
      rw [List.length_cons]
      cases hs : step limit mode groups c with
      | go mode' groups' =>
          rw [firstError_cons_go hs] at h
          have hnext := ih h
          omega
      | stop cause =>
          rw [firstError_cons_stop hs] at h
          obtain rfl := Option.some.inj h
          rw [errorAt_position]
          show consumed < consumed + 1 ∧
            consumed + 1 ≤ consumed + (rest.length + 1) + 1
          omega

/-- The error is decided by the characters up to its place. -/
theorem firstError_of_take {rest' : List Char}
    (h : firstError limit mode groups ⟨rest, consumed, offset⟩ = some e)
    (hle : e.position ≤ consumed + rest.length)
    (htake : rest'.take (e.position - consumed) =
      rest.take (e.position - consumed)) :
    firstError limit mode groups ⟨rest', consumed, offset⟩ = some e := by
  induction rest generalizing mode groups consumed offset rest' with
  | nil =>
      have hlt := (firstError_position h).1
      rw [List.length_nil] at hle
      omega
  | cons c rest ih =>
      have hlt := (firstError_position h).1
      obtain ⟨m, hm⟩ : ∃ m, e.position - consumed = m + 1 :=
        ⟨e.position - consumed - 1, by omega⟩
      rw [hm, List.take_succ_cons] at htake
      cases rest' with
      | nil => cases htake
      | cons c' rest' =>
          rw [List.take_succ_cons] at htake
          obtain ⟨rfl, htail⟩ := List.cons.inj htake
          cases hs : step limit mode groups c' with
          | go mode' groups' =>
              rw [firstError_cons_go hs] at h ⊢
              have hm' : e.position - (consumed + 1) = m := by omega
              rw [List.length_cons] at hle
              refine ih h (by omega) ?_
              rw [hm']
              exact htail
          | stop cause =>
              rw [firstError_cons_stop hs] at h ⊢
              rw [← h]
              cases cause <;> rfl

/-! ## Every mode can be ended -/

/-- A lower bound that the mode remembers is a literal. -/
def Mode.Bounded : Mode → Prop
  | .single lo => isLiteral lo = true
  | .dash lo => isLiteral lo = true
  | _ => True

theorem beginTerm_bounded {c : Char} {mode' : Mode} {groups' : Nat}
    (hs : beginTerm limit groups c = .go mode' groups') : mode'.Bounded := by
  rw [beginTerm] at hs
  split at hs
  · cases hs
    trivial
  · split at hs
    · cases hs
      trivial
    · split at hs
      · split at hs
        · cases hs
          trivial
        · cases hs
      · cases hs

theorem afterTerm_bounded {c : Char} {mode' : Mode} {groups' : Nat}
    (hs : afterTerm limit groups c = .go mode' groups') : mode'.Bounded := by
  rw [afterTerm] at hs
  split at hs
  · cases hs
    trivial
  · split at hs
    · cases hs
      trivial
    · exact beginTerm_bounded hs

theorem step_bounded {c : Char} {mode' : Mode} {groups' : Nat}
    (hmode : mode.Bounded) (hs : step limit mode groups c = .go mode' groups') :
    mode'.Bounded := by
  cases mode with
  | term => exact beginTerm_bounded hs
  | ended =>
      rw [step] at hs
      split at hs
      · cases hs
        trivial
      · exact afterTerm_bounded hs
  | starred => exact afterTerm_bounded hs
  | opened =>
      rw [step] at hs
      split at hs
      · cases hs
        trivial
      · split at hs
        · next hlit =>
            cases hs
            exact hlit
        · cases hs
  | negated =>
      rw [step] at hs
      split at hs
      · next hlit =>
          cases hs
          exact hlit
      · cases hs
  | single lo =>
      rw [step] at hs
      split at hs
      · cases hs
        exact hmode
      · split at hs
        · next hlit =>
            cases hs
            exact hlit
        · split at hs
          · cases hs
            trivial
          · cases hs
  | dash lo =>
      rw [step] at hs
      split at hs
      · split at hs
        · cases hs
          trivial
        · cases hs
      · cases hs
  | range =>
      rw [step] at hs
      split at hs
      · next hlit =>
          cases hs
          exact hlit
      · split at hs
        · cases hs
          trivial
        · cases hs

/-- A text after which nothing but the closing of groups is missing. -/
def Mode.ending : Mode → List Char
  | .term => ['a']
  | .ended => []
  | .starred => []
  | .opened => ['a', ']']
  | .negated => ['a', ']']
  | .single _ => [']']
  | .dash lo => [lo, ']']
  | .range => [']']

theorem firstError_starred_replicate :
    firstError limit .starred groups
      ⟨List.replicate groups ')', consumed, offset⟩ = none := by
  induction groups generalizing consumed offset with
  | zero => exact firstError_end rfl
  | succ groups ih =>
      have hs : step limit .starred (groups + 1) ')' = .go .ended groups := by
        rw [step, afterTerm, if_neg (by decide), if_pos ⟨rfl, Nat.succ_pos _⟩,
          Nat.add_sub_cancel]
      rw [List.replicate_succ, firstError_cons_go hs, firstError_ended]
      · exact ih
      · -- Behind a closed group stands another parenthesis or the end.
        cases groups with
        | zero => exact fun h => by cases h
        | succ groups => exact fun h => by cases h

theorem firstError_ended_replicate :
    firstError limit .ended groups
      ⟨List.replicate groups ')', consumed, offset⟩ = none := by
  rw [firstError_ended]
  · exact firstError_starred_replicate
  · cases groups with
    | zero => exact fun h => by cases h
    | succ groups => exact fun h => by cases h

theorem firstError_ending (hmode : mode.Bounded) :
    firstError limit mode groups
      ⟨mode.ending ++ List.replicate groups ')', consumed, offset⟩ = none := by
  have hrange : ∀ {mode : Mode} {consumed offset : Nat},
      step limit mode groups ']' = .go .ended groups →
      firstError limit mode groups
        ⟨']' :: List.replicate groups ')', consumed, offset⟩ = none := by
    intro mode consumed offset hs
    rw [firstError_cons_go hs]
    exact firstError_ended_replicate
  cases mode with
  | term =>
      have hs : step limit .term groups 'a' = .go .ended groups := by
        rw [step, beginTerm, if_pos (by decide)]
      rw [Mode.ending, List.cons_append, firstError_cons_go hs]
      exact firstError_ended_replicate
  | ended => exact firstError_ended_replicate
  | starred => exact firstError_starred_replicate
  | opened =>
      have hs : step limit .opened groups 'a' = .go (.single 'a') groups := by
        rw [step, if_neg (by decide), if_pos (by decide)]
      rw [Mode.ending, List.cons_append, firstError_cons_go hs]
      refine hrange ?_
      rw [step, if_neg (by decide), if_neg (by decide), if_pos rfl]
  | negated =>
      have hs : step limit .negated groups 'a' = .go (.single 'a') groups := by
        rw [step, if_pos (by decide)]
      rw [Mode.ending, List.cons_append, firstError_cons_go hs]
      refine hrange ?_
      rw [step, if_neg (by decide), if_neg (by decide), if_pos rfl]
  | single lo =>
      refine hrange ?_
      rw [step, if_neg (by decide), if_neg (by decide), if_pos rfl]
  | dash lo =>
      have hs : step limit (.dash lo) groups lo = .go .range groups := by
        rw [step, if_pos (show isLiteral lo = true from hmode),
          if_pos (Char.le_refl lo)]
      rw [Mode.ending, List.cons_append, firstError_cons_go hs]
      refine hrange ?_
      rw [step, if_neg (by decide), if_pos rfl]
  | range =>
      refine hrange ?_
      rw [step, if_neg (by decide), if_pos rfl]

/-- What stands before the place of an error can be completed. -/
theorem exists_completion (hmode : mode.Bounded)
    (h : firstError limit mode groups ⟨rest, consumed, offset⟩ = some e) :
    ∃ more, firstError limit mode groups
      ⟨rest.take (e.position - 1 - consumed) ++ more, consumed, offset⟩ =
        none := by
  induction rest generalizing mode groups consumed offset with
  | nil =>
      rw [List.take_nil]
      exact ⟨_, firstError_ending hmode⟩
  | cons c rest ih =>
      cases hs : step limit mode groups c with
      | go mode' groups' =>
          rw [firstError_cons_go hs] at h
          have hlt := (firstError_position h).1
          obtain ⟨more, hmore⟩ := ih (step_bounded hmode hs) h
          obtain ⟨m, hm⟩ : ∃ m, e.position - 1 - (consumed + 1) = m := ⟨_, rfl⟩
          have hm' : e.position - 1 - consumed = m + 1 := by omega
          refine ⟨more, ?_⟩
          rw [hm', List.take_succ_cons, List.cons_append, firstError_cons_go hs,
            ← hm]
          exact hmore
      | stop cause =>
          rw [firstError_cons_stop hs] at h
          obtain rfl := Option.some.inj h
          have hposition :
              (errorAt ⟨c :: rest, consumed, offset⟩ cause).position =
                consumed + 1 :=
            errorAt_position _ _
          rw [hposition, Nat.add_sub_cancel, Nat.sub_self, List.take_zero]
          exact ⟨_, firstError_ending hmode⟩

end PatternSyntax.Scanner

namespace PatternSyntax.Parser

open Scanner

variable {τ σ : Type}

/-- A parse succeeds exactly if the recogniser finds no error. -/
theorem parse_ok_iff {p : Parser τ σ} {s : String} {made : τ} :
    (∃ value, (p.parse s made).1 = .ok value) ↔
      firstError p.nestLimit .term 0 (Input.ofList s.toList) = none := by
  rw [← errorOf_eq_none_iff, parse, errorOf_parseList]

theorem parse_error_iff {p : Parser τ σ} {s : String} {made : τ}
    {e : ParseError} :
    (p.parse s made).1 = .error e ↔
      firstError p.nestLimit .term 0 (Input.ofList s.toList) = some e := by
  rw [← errorOf_eq_some_iff, parse, errorOf_parseList]

/-- An error stands at the first character that cannot be continued. What comes
before it begins an accepted pattern; the error is the same for all patterns
that agree up to and at its place; and so the pattern itself begins an accepted
one exactly if the error is at its end. -/
theorem error_at_first_dead_character {p : Parser τ σ} {s : String} {made : τ}
    {e : ParseError} (h : (p.parse s made).1 = .error e) :
    (∃ more value,
      (p.parse (String.ofList (s.toList.take (e.position - 1) ++ more))
        made).1 = .ok value) ∧
    (e.position ≤ s.length → ∀ s' : String,
      s'.toList.take e.position = s.toList.take e.position →
        ∀ made', (p.parse s' made').1 = .error e) ∧
    ((∃ more value, (p.parse (s ++ more) made).1 = .ok value) ↔
      e.position = s.length + 1) := by
  have herror := parse_error_iff.mp h
  have hbound : e.position ≤ s.length + 1 := by
    have hle := (firstError_position herror).2
    rw [Nat.zero_add, String.length_toList] at hle
    exact hle
  have hviable : ∃ more value,
      (p.parse (String.ofList (s.toList.take (e.position - 1) ++ more))
        made).1 = .ok value := by
    have hterm : Mode.term.Bounded := trivial
    obtain ⟨more, hmore⟩ := exists_completion hterm herror
    refine ⟨more, parse_ok_iff.mpr ?_⟩
    rw [String.toList_ofList]
    exact hmore
  have hstable : e.position ≤ s.length → ∀ s' : String,
      s'.toList.take e.position = s.toList.take e.position →
        ∀ made', (p.parse s' made').1 = .error e := by
    intro hle s' htake made'
    refine parse_error_iff.mpr (firstError_of_take herror ?_ htake)
    rw [Nat.zero_add, String.length_toList]
    exact hle
  refine ⟨hviable, hstable, ?_, ?_⟩
  · rintro ⟨more, value, hok⟩
    rcases Nat.lt_or_eq_of_le hbound with hlt | hend
    · have hle : e.position ≤ s.length := Nat.le_of_lt_succ hlt
      have htake : (s ++ more).toList.take e.position =
          s.toList.take e.position := by
        rw [String.toList_append]
        exact List.take_append_of_le_length (String.length_toList ▸ hle)
      rw [hstable hle _ htake made] at hok
      cases hok
    · exact hend
  · intro hend
    obtain ⟨more, value, hok⟩ := hviable
    rw [hend, Nat.add_sub_cancel, ← String.length_toList, List.take_length,
      String.ofList_append, String.ofList_toList] at hok
    exact ⟨_, value, hok⟩

/-- In the middle of a range, inside a bracket and a group. -/
theorem error_at_first_dead_character_in_range :
    let p : Parser (Array Atom) Atom := ⟨.recorder, 1⟩
    let e : ParseError := ⟨.descendingRange 'z' 'b', 7, ⟨5, 3⟩⟩
    (p.parse "é(a[z-b" #[]).1 = .error e ∧
      (∃ more value,
        (p.parse (String.ofList ("é(a[z-b".toList.take 6 ++ more)) #[]).1
        = .ok value) ∧
      ∀ s' : String, s'.toList.take 7 = "é(a[z-b".toList.take 7 →
        ∀ log, (p.parse s' log).1 = .error e := by
  intro p e
  have h : (p.parse "é(a[z-b" #[]).1 = .error e :=
    parse_error_iff.mpr (by decide +kernel)
  obtain ⟨hviable, hstable, -⟩ := error_at_first_dead_character h
  exact ⟨h, hviable, hstable (by decide)⟩

end PatternSyntax.Parser
