import PatternSyntax.Proofs.CorrectPrefix

/-!
# Runs of the recogniser

Until it stops, the recogniser only walks from one mode to the next. So an error
is a run over the text before it and a reason to stop there, and whatever is
said about errors can be said about runs first, without places.

A run counts the groups. One step opens a group, closes one or leaves their
number as it is, by the character alone; in brackets a parenthesis is never
passed. That is why the number of open groups behind a text is the number of
parentheses in it that are not closed.

The limit matters to one kind of step only, to a parenthesis where a term may
begin.
-/

namespace PatternSyntax.Scanner

variable {limit limit' : UInt32} {mode mode' : Mode} {groups groups' : Nat}
  {c : Char}

/-! ## One step and the groups -/

/-- A term may begin with the next character. -/
def Mode.takesTerm : Mode → Bool
  | .term => true
  | .ended => true
  | .starred => true
  | _ => false

theorem step_open (hmode : mode.takesTerm = true) :
    step limit mode groups '(' =
      if groups < limit.toNat then .go .term (groups + 1)
        else .stop (.tooDeep limit) := by
  have hbegin : beginTerm limit groups '(' =
      if groups < limit.toNat then .go .term (groups + 1)
        else .stop (.tooDeep limit) := by
    rw [beginTerm, if_neg (by decide), if_neg (by decide), if_pos rfl]
  have hafter : afterTerm limit groups '(' = beginTerm limit groups '(' := by
    rw [afterTerm, if_neg (by decide), if_neg (fun h => absurd h.1 (by decide))]
  cases mode with
  | term => exact hbegin
  | ended => rw [step, if_neg (by decide), hafter, hbegin]
  | starred => exact hafter.trans hbegin
  | _ => cases hmode

/-- The limit is asked for a parenthesis alone. -/
theorem step_limit (hc : c ≠ '(') :
    step limit mode groups c = step limit' mode groups c := by
  have hbegin : beginTerm limit groups c = beginTerm limit' groups c := by
    rw [beginTerm, beginTerm, if_neg hc, if_neg hc]
  have hafter : afterTerm limit groups c = afterTerm limit' groups c := by
    rw [afterTerm, afterTerm, hbegin]
  cases mode with
  | term => exact hbegin
  | ended => rw [step, step, hafter]
  | starred => exact hafter
  | _ => rfl

/-- A step on `c` that opens no group: it closes one if `c` does, and the limit
does not stop it. -/
def Step.OpensNone (groups : Nat) (c : Char) : Step → Prop
  | .go _ groups' => c ≠ '(' ∧ groups = groups' + [c].count ')'
  | .stop cause => ∀ n, cause ≠ .tooDeep n

theorem opensNone_go (hopen : c ≠ '(') (hclose : c ≠ ')') :
    (Step.go mode groups).OpensNone groups c := by
  refine ⟨hopen, ?_⟩
  rw [List.count_cons_of_ne hclose]
  rfl

theorem ne_close_of_isLiteral (hc : isLiteral c = true) : c ≠ ')' :=
  (isLiteral_iff.mp hc).2.2.2.2.1

theorem beginTerm_opensNone (hc : c ≠ '(') :
    (beginTerm limit groups c).OpensNone groups c := by
  rw [beginTerm]
  split
  · next hlit => exact opensNone_go hc (ne_close_of_isLiteral hlit)
  · split
    · next hopened => exact opensNone_go hc (by rw [hopened]; decide)
    · intro n h
      cases h

theorem afterTerm_opensNone (hc : c ≠ '(') :
    (afterTerm limit groups c).OpensNone groups c := by
  rw [afterTerm]
  split
  · next hbar => exact opensNone_go hc (by rw [hbar]; decide)
  · split
    · next hclose =>
        obtain ⟨rfl, hpos⟩ := hclose
        refine ⟨hc, ?_⟩
        show groups = groups - 1 + 1
        omega
    · exact beginTerm_opensNone hc

theorem step_opensNone (hc : c ≠ '(') :
    (step limit mode groups c).OpensNone groups c := by
  have hclosed : ∀ {mode : Mode}, c = ']' →
      (Step.go mode groups).OpensNone groups c := by
    intro mode hclose
    exact opensNone_go hc (by rw [hclose]; decide)
  cases mode with
  | term => exact beginTerm_opensNone hc
  | ended =>
      rw [step]
      split
      · next hstar => exact opensNone_go hc (by rw [hstar]; decide)
      · exact afterTerm_opensNone hc
  | starred => exact afterTerm_opensNone hc
  | opened =>
      rw [step]
      split
      · next hcaret => exact opensNone_go hc (by rw [hcaret]; decide)
      · split
        · next hlit => exact opensNone_go hc (ne_close_of_isLiteral hlit)
        · intro n h
          cases h
  | negated =>
      rw [step]
      split
      · next hlit => exact opensNone_go hc (ne_close_of_isLiteral hlit)
      · intro n h
        cases h
  | single lo =>
      rw [step]
      split
      · next hdash => exact opensNone_go hc (by rw [hdash]; decide)
      · split
        · next hlit => exact opensNone_go hc (ne_close_of_isLiteral hlit)
        · split
          · next hclose => exact hclosed hclose
          · intro n h
            cases h
  | dash lo =>
      rw [step]
      split
      · next hlit =>
          split
          · exact opensNone_go hc (ne_close_of_isLiteral hlit)
          · intro n h
            cases h
      · intro n h
        cases h
  | range =>
      rw [step]
      split
      · next hlit => exact opensNone_go hc (ne_close_of_isLiteral hlit)
      · split
        · next hclose => exact hclosed hclose
        · intro n h
          cases h

/-- A step is one on a parenthesis where a term may begin, or it opens no group
and is the same under every limit. -/
theorem step_cases (limit : UInt32) (mode : Mode) (groups : Nat) (c : Char) :
    (c = '(' ∧ mode.takesTerm = true) ∨
      (∀ limit', step limit' mode groups c = step limit mode groups c) ∧
        (step limit mode groups c).OpensNone groups c := by
  by_cases hc : c = '('
  · subst hc
    cases mode with
    | term => exact Or.inl ⟨rfl, rfl⟩
    | ended => exact Or.inl ⟨rfl, rfl⟩
    | starred => exact Or.inl ⟨rfl, rfl⟩
    | _ =>
        -- In brackets a parenthesis is an error.
        exact Or.inr ⟨fun _ => rfl, fun _ => nofun⟩
  · exact Or.inr ⟨fun _ => step_limit hc, step_opensNone hc⟩

/-- What a step that goes on does to the groups. -/
theorem step_groups (hs : step limit mode groups c = .go mode' groups') :
    groups + [c].count '(' = groups' + [c].count ')' ∧
    (c = '(' → groups < limit.toNat) := by
  rcases step_cases limit mode groups c with ⟨rfl, hmode⟩ | ⟨-, hnone⟩
  · rw [step_open hmode] at hs
    split at hs
    · next hroom =>
        cases hs
        exact ⟨rfl, fun _ => hroom⟩
    · cases hs
  · rw [hs] at hnone
    obtain ⟨hc, hgroups⟩ := hnone
    rw [List.count_cons_of_ne hc]
    exact ⟨hgroups, fun h => absurd h hc⟩

theorem step_groups_le {n : Nat}
    (hs : step limit mode groups c = .go mode' groups') (hle : groups ≤ n)
    (hroom : c = '(' → groups < n) : groups' ≤ n := by
  have hgroups := (step_groups hs).1
  by_cases hc : c = '('
  · have hlt := hroom hc
    have hone : [c].count '(' = 1 := by rw [hc, List.count_singleton_self]
    omega
  · rw [List.count_cons_of_ne hc, List.count_nil] at hgroups
    omega

/-- The limit stops the recogniser at a parenthesis where a term may begin. -/
theorem step_tooDeep {n : UInt32}
    (hs : step limit mode groups c = .stop (.tooDeep n)) :
    c = '(' ∧ mode.takesTerm = true ∧ limit.toNat ≤ groups ∧ n = limit := by
  rcases step_cases limit mode groups c with ⟨rfl, hmode⟩ | ⟨-, hnone⟩
  · rw [step_open hmode] at hs
    split at hs
    · cases hs
    · next hroom =>
        cases hs
        exact ⟨rfl, hmode, Nat.le_of_not_lt hroom, rfl⟩
  · rw [hs] at hnone
    exact absurd rfl (hnone n)

/-- A step goes on under another limit too, if that one leaves room for a
group. -/
theorem step_go_of_room (hs : step limit mode groups c = .go mode' groups')
    (hroom : c = '(' → groups < limit'.toNat) :
    step limit' mode groups c = .go mode' groups' := by
  rcases step_cases limit mode groups c with ⟨rfl, hmode⟩ | ⟨hsame, -⟩
  · have hroom' := (step_groups hs).2 rfl
    rw [step_open hmode, if_pos hroom'] at hs
    rw [step_open hmode, if_pos (hroom rfl), hs]
  · rw [hsame limit', hs]

/-- A step that the limit does not stop is stopped under every other one. -/
theorem step_stop_limit {cause : Cause}
    (hs : step limit mode groups c = .stop cause)
    (hcause : ∀ n, cause ≠ .tooDeep n) :
    step limit' mode groups c = .stop cause := by
  rcases step_cases limit mode groups c with ⟨rfl, hmode⟩ | ⟨hsame, -⟩
  · rw [step_open hmode] at hs
    split at hs
    · cases hs
    · cases hs
      exact absurd rfl (hcause limit)
  · rw [hsame limit', hs]

/-! ## Runs -/

/-- The mode and the number of open groups behind a text without an error in
it. -/
def run (limit : UInt32) (mode : Mode) (groups : Nat) (s : List Char) :
    Option (Mode × Nat) :=
  match s with
  | [] => some (mode, groups)
  | c :: rest =>
    match step limit mode groups c with
    | .go mode groups => run limit mode groups rest
    | .stop _ => none

/-- Why the recogniser stops before the text, if it stops there. -/
def halt (limit : UInt32) (mode : Mode) (groups : Nat) (s : List Char) :
    Option Cause :=
  match s with
  | [] => atEnd mode groups
  | c :: _ =>
    match step limit mode groups c with
    | .go _ _ => none
    | .stop cause => some cause

section Runs

variable {u v rest : List Char} {behind : Mode × Nat} {cause : Cause}

theorem run_cons (hs : step limit mode groups c = .go mode' groups') :
    run limit mode groups (c :: rest) = run limit mode' groups' rest := by
  rw [run, hs]

theorem run_cons_eq_some (h : run limit mode groups (c :: rest) = some behind) :
    ∃ mode' groups', step limit mode groups c = .go mode' groups' ∧
      run limit mode' groups' rest = some behind := by
  rw [run] at h
  split at h
  · next mode' groups' hs => exact ⟨mode', groups', hs, h⟩
  · cases h

theorem run_append_eq_some :
    run limit mode groups (u ++ v) = some behind ↔
      ∃ mode' groups', run limit mode groups u = some (mode', groups') ∧
        run limit mode' groups' v = some behind := by
  induction u generalizing mode groups with
  | nil =>
      constructor
      · exact fun h => ⟨mode, groups, rfl, h⟩
      · rintro ⟨mode', groups', hu, hv⟩
        cases hu
        exact hv
  | cons c u ih =>
      rw [List.cons_append, run, run]
      split
      · exact ih
      · exact ⟨nofun, nofun⟩

/-- The open groups behind a run are the parentheses that it has not closed. -/
theorem run_groups (h : run limit mode groups u = some (mode', groups')) :
    groups + u.count '(' = groups' + u.count ')' := by
  induction u generalizing mode groups with
  | nil =>
      cases h
      rfl
  | cons c u ih =>
      obtain ⟨mode₁, groups₁, hs, hu⟩ := run_cons_eq_some h
      have hstep := (step_groups hs).1
      have hrest := ih hu
      rw [← List.singleton_append, List.count_append, List.count_append]
      omega

/-- A run opens a group only where there is room for one. -/
theorem run_room (h : run limit mode groups (u ++ '(' :: v) = some behind) :
    groups + u.count '(' < limit.toNat + u.count ')' := by
  obtain ⟨mode₁, groups₁, hu, hv⟩ := run_append_eq_some.mp h
  obtain ⟨mode₂, groups₂, hs, -⟩ := run_cons_eq_some hv
  have hroom := (step_groups hs).2 rfl
  have hgroups := run_groups hu
  omega

theorem run_groups_le (hle : groups ≤ limit.toNat)
    (h : run limit mode groups u = some (mode', groups')) :
    groups' ≤ limit.toNat := by
  induction u generalizing mode groups with
  | nil =>
      cases h
      exact hle
  | cons c u ih =>
      obtain ⟨mode₁, groups₁, hs, hu⟩ := run_cons_eq_some h
      exact ih (step_groups_le hs hle (step_groups hs).2) hu

/-- A run is one under every other limit, unless it opens a group just where
that limit is reached. -/
theorem run_of_room (hle : groups ≤ limit'.toNat)
    (h : run limit mode groups u = some behind)
    (hroom : ∀ v w, u = v ++ '(' :: w →
      groups + v.count '(' ≠ limit'.toNat + v.count ')') :
    run limit' mode groups u = some behind := by
  induction u generalizing mode groups with
  | nil => exact h
  | cons c u ih =>
      obtain ⟨mode₁, groups₁, hs, hu⟩ := run_cons_eq_some h
      have hstep := (step_groups hs).1
      have hfirst : c = '(' → groups < limit'.toNat := by
        intro hc
        exact Nat.lt_of_le_of_ne hle (hroom [] u (by rw [hc]; rfl))
      rw [run_cons (step_go_of_room hs hfirst)]
      refine ih (step_groups_le hs hle hfirst) hu fun v w hsplit => ?_
      have hcount := hroom (c :: v) w (by rw [hsplit]; rfl)
      rw [← List.singleton_append, List.count_append,
        List.count_append] at hcount
      omega

theorem run_mono (hlimit : limit ≤ limit') (hle : groups ≤ limit'.toNat)
    (h : run limit mode groups u = some behind) :
    run limit' mode groups u = some behind := by
  refine run_of_room hle h fun v w hsplit => ?_
  subst hsplit
  have hroom := run_room h
  have hlimit := UInt32.le_iff_toNat_le.mp hlimit
  omega

theorem halt_limit (h : halt limit mode groups v = some cause)
    (hcause : ∀ n, cause ≠ .tooDeep n) :
    halt limit' mode groups v = some cause := by
  cases v with
  | nil => exact h
  | cons c v =>
      rw [halt] at h
      split at h
      · cases h
      · next cause' hs =>
          cases h
          rw [halt, step_stop_limit hs hcause]

/-- The limit stops the recogniser before a group that would be one too many. -/
theorem halt_tooDeep {n : UInt32}
    (h : halt limit mode groups v = some (.tooDeep n)) :
    (∃ rest, v = '(' :: rest) ∧ mode.takesTerm = true ∧ limit.toNat ≤ groups ∧
    n = limit := by
  cases v with
  | nil =>
      rw [halt] at h
      cases mode with
      | ended => rw [atEnd] at h; split at h <;> cases h
      | starred => rw [atEnd] at h; split at h <;> cases h
      | _ => cases h
  | cons c v =>
      rw [halt] at h
      split at h
      · cases h
      · next cause hs =>
          cases h
          obtain ⟨rfl, hmode, hfull, hn⟩ := step_tooDeep hs
          exact ⟨⟨v, rfl⟩, hmode, hfull, hn⟩

/-! ## Errors as ends of runs -/

/-- The number of bytes in the text. -/
def utf8Length : List Char → Nat
  | [] => 0
  | c :: s => c.utf8Size + utf8Length s

variable {consumed offset : Nat} {e : ParseError}

/-- Behind a run the recogniser goes on as if it began there. -/
theorem firstError_of_run
    (h : run limit mode groups u = some (mode', groups')) :
    firstError limit mode groups ⟨u ++ v, consumed, offset⟩ =
      firstError limit mode' groups'
        ⟨v, consumed + u.length, offset + utf8Length u⟩ := by
  induction u generalizing mode groups consumed offset with
  | nil =>
      cases h
      rfl
  | cons c u ih =>
      obtain ⟨mode₁, groups₁, hs, hu⟩ := run_cons_eq_some h
      have hconsumed : consumed + 1 + u.length =
          consumed + (c :: u).length := by
        rw [List.length_cons]
        omega
      have hoffset : offset + c.utf8Size + utf8Length u =
          offset + utf8Length (c :: u) := by
        rw [utf8Length]
        omega
      rw [List.cons_append, firstError_cons_go hs, ih hu, hconsumed, hoffset]

theorem firstError_of_halt (h : halt limit mode groups v = some cause) :
    firstError limit mode groups ⟨v, consumed, offset⟩ =
      some (errorAt ⟨v, consumed, offset⟩ cause) := by
  cases v with
  | nil =>
      rw [firstError_end rfl, show atEnd mode groups = some cause from h]
      rfl
  | cons c v =>
      rw [halt] at h
      split at h
      · cases h
      · next cause' hs =>
          cases h
          exact firstError_cons_stop hs

/-- An error is a run and a reason to stop behind it. -/
theorem firstError_eq_some_iff {s : List Char} :
    firstError limit mode groups ⟨s, consumed, offset⟩ = some e ↔
      ∃ u v mode' groups' cause, s = u ++ v ∧
        run limit mode groups u = some (mode', groups') ∧
        halt limit mode' groups' v = some cause ∧
        e = errorAt ⟨v, consumed + u.length, offset + utf8Length u⟩ cause := by
  constructor
  · intro h
    induction s generalizing mode groups consumed offset with
    | nil =>
        rw [firstError_end rfl] at h
        obtain ⟨cause, hcause, rfl⟩ := Option.map_eq_some_iff.mp h
        exact ⟨[], [], mode, groups, cause, rfl, rfl, hcause, rfl⟩
    | cons c s ih =>
        cases hs : step limit mode groups c with
        | go mode₁ groups₁ =>
            rw [firstError_cons_go hs] at h
            obtain ⟨u, v, mode', groups', cause, rfl, hu, hv, rfl⟩ := ih h
            refine ⟨c :: u, v, mode', groups', cause, rfl,
              (run_cons hs).trans hu, hv, ?_⟩
            rw [utf8Length, List.length_cons]
            congr 2
            · omega
            · omega
        | stop cause =>
            rw [firstError_cons_stop hs] at h
            cases h
            exact ⟨[], c :: s, mode, groups, cause, rfl,
              rfl, by rw [halt, hs], rfl⟩
  · rintro ⟨u, v, mode', groups', cause, rfl, hu, hv, rfl⟩
    rw [firstError_of_run hu, firstError_of_halt hv]

/-- An error comes behind every text that can be run over. -/
theorem lt_position_of_run (hu : run limit mode groups u = some behind)
    (h : firstError limit mode groups ⟨u ++ v, consumed, offset⟩ = some e) :
    consumed + u.length < e.position := by
  rw [firstError_of_run hu] at h
  exact (firstError_position h).1

theorem exists_run
    (h : ∀ e, firstError limit mode groups ⟨u ++ v, consumed, offset⟩ = some e →
      consumed + u.length < e.position) :
    ∃ mode' groups', run limit mode groups u = some (mode', groups') := by
  induction u generalizing mode groups consumed offset with
  | nil => exact ⟨mode, groups, rfl⟩
  | cons c u ih =>
      cases hs : step limit mode groups c with
      | go mode₁ groups₁ =>
          rw [run_cons hs]
          have hrest : ∀ e, firstError limit mode₁ groups₁
              ⟨u ++ v, consumed + 1, offset + c.utf8Size⟩ = some e →
              consumed + 1 + u.length < e.position := by
            intro e he
            have hlt := h e ((firstError_cons_go hs).trans he)
            rw [List.length_cons] at hlt
            omega
          exact ih hrest
      | stop cause =>
          have hlt := h _ (firstError_cons_stop hs)
          rw [errorAt_position, List.length_cons] at hlt
          exact absurd hlt
            (by show ¬ consumed + (u.length + 1) < consumed + 1; omega)

end Runs

end PatternSyntax.Scanner
