import PatternSyntax.Proofs.Exactness
import PatternSyntax.Proofs.GroupNesting
import PatternSyntax.Proofs.ScannerRuns

/-!
# The nest limit cuts a parse off, and does nothing else

Two parses of one pattern under different limits are the same parse until one of
them stops for its limit. A run of the recogniser under the lower limit is one
under the higher, and a reason to stop other than the limit is the same reason.

Where the limit stops a parse can be told from the text. The number of open
groups is the number of parentheses that are not closed, and it grows by one at
a time. So the place is the first parenthesis behind as many open ones as the
limit allows, if the parse comes that far. It does if it passes that place with
one group more allowed.
-/

namespace PatternSyntax

/-- Behind `u` stands the first parenthesis of the text that is inside so many
open groups. -/
structure FirstInside (groups : Nat) (s u : List Char) : Prop where
  opens : ∃ v, s = u ++ '(' :: v
  inside : u.count '(' = groups + u.count ')'
  first : ∀ u' v', s = u' ++ '(' :: v' → u'.count '(' = groups + u'.count ')' →
    u.length ≤ u'.length

namespace Scanner

variable {limit deeper : UInt32} {mode : Mode} {s u v : List Char}
  {e : ParseError}

theorem firstInside_of_run
    (hu : run limit .term 0 u = some (mode, limit.toNat)) :
    FirstInside limit.toNat (u ++ '(' :: v) u where
  opens := ⟨v, rfl⟩
  inside := by
    have hgroups := run_groups hu
    omega
  first := by
    intro u' v' hsplit hcount
    refine Nat.le_of_not_lt fun hlt => ?_
    rcases List.append_eq_append_iff.mp hsplit with ⟨w, rfl, -⟩ | ⟨w, rfl, hw⟩
    · rw [List.length_append] at hlt
      omega
    · -- An earlier parenthesis is one that the run has passed, so there was
      -- room for its group.
      cases w with
      | nil => simp at hlt
      | cons c w =>
          obtain ⟨rfl, -⟩ := List.cons.inj hw
          have hroom := run_room hu
          omega

/-- The limit stops the recogniser behind a run into as many groups as it
allows. -/
theorem exists_run_of_tooDeep {n : UInt32}
    (h : firstError limit .term 0 (Input.ofList s) = some e)
    (hcause : e.cause = .tooDeep n) :
    n = limit ∧ ∃ u v mode, s = u ++ '(' :: v ∧ mode.takesTerm = true ∧
      run limit .term 0 u = some (mode, limit.toNat) ∧
      e.position = u.length + 1 := by
  obtain ⟨u, v, mode, groups, cause, rfl, hu, hv, rfl⟩ :=
    firstError_eq_some_iff.mp h
  rw [errorAt_cause] at hcause
  subst hcause
  obtain ⟨⟨rest, rfl⟩, hmode, hfull, rfl⟩ := halt_tooDeep hv
  have hgroups : groups = n.toNat :=
    Nat.le_antisymm (run_groups_le (Nat.zero_le _) hu) hfull
  subst hgroups
  refine ⟨rfl, u, rest, mode, rfl, hmode, hu, ?_⟩
  rw [errorAt_position, Input.position, Nat.zero_add]

theorem tooDeep_of_run (hu : run limit .term 0 u = some (mode, limit.toNat))
    (hmode : mode.takesTerm = true) :
    ∃ e, firstError limit .term 0 (Input.ofList (u ++ '(' :: v)) = some e ∧
      e.cause = .tooDeep limit ∧ e.position = u.length + 1 := by
  have hhalt : halt limit mode limit.toNat ('(' :: v) =
      some (.tooDeep limit) := by
    rw [halt, step_open hmode, if_neg (Nat.lt_irrefl _)]
  refine ⟨_, firstError_eq_some_iff.mpr ⟨u, _, _, _, _, rfl, hu, hhalt, rfl⟩,
    ?_, ?_⟩
  · exact errorAt_cause _ _
  · rw [errorAt_position, Input.position, Nat.zero_add]

/-- With one group more allowed the run passes the place, and is not stopped
there. -/
theorem passes_of_run (hdeeper : deeper.toNat = limit.toNat + 1)
    (hu : run limit .term 0 u = some (mode, limit.toNat))
    (hmode : mode.takesTerm = true)
    (h : firstError deeper .term 0 (Input.ofList (u ++ '(' :: v)) = some e) :
    u.length + 1 < e.position := by
  have hlimit : limit ≤ deeper := UInt32.le_iff_toNat_le.mpr (by omega)
  have hgo : step deeper mode limit.toNat '(' =
      .go .term (limit.toNat + 1) := by
    rw [step_open hmode, if_pos (by omega)]
  have hpast : run deeper .term 0 (u ++ ['(']) =
      some (.term, limit.toNat + 1) :=
    run_append_eq_some.mpr
      ⟨mode, limit.toNat, run_mono hlimit (Nat.zero_le _) hu, by
        rw [run_cons hgo, run]⟩
  rw [List.append_cons] at h
  have hlt := lt_position_of_run hpast h
  rw [List.length_append, List.length_singleton] at hlt
  omega

/-- Conversely, who passes the place with one group more allowed has come to
it. -/
theorem run_of_firstInside (deeper : UInt32)
    (hfirst : FirstInside limit.toNat (u ++ '(' :: v) u)
    (hpass : ∀ e,
      firstError deeper .term 0 (Input.ofList (u ++ '(' :: v)) = some e →
      u.length + 1 < e.position) :
    ∃ mode, run limit .term 0 u = some (mode, limit.toNat) ∧
      mode.takesTerm = true := by
  have hpast :
      ∃ mode groups, run deeper .term 0 (u ++ ['(']) = some (mode, groups) := by
    have hplace : ∀ e,
        firstError deeper .term 0 ⟨u ++ ['('] ++ v, 0, 0⟩ = some e →
        0 + (u ++ ['(']).length < e.position := by
      intro e he
      rw [← List.append_cons] at he
      have hlt := hpass e he
      rw [List.length_append, List.length_singleton]
      omega
    exact exists_run hplace
  obtain ⟨mode₁, groups₁, hpast⟩ := hpast
  obtain ⟨mode, groups, hu, hopen⟩ := run_append_eq_some.mp hpast
  obtain ⟨mode₂, groups₂, hs, -⟩ := run_cons_eq_some hopen
  have hgroups : groups = limit.toNat := by
    have hcount := run_groups hu
    have hinside := hfirst.inside
    omega
  have hmode : mode.takesTerm = true := by
    rcases step_cases deeper mode groups '(' with ⟨-, hmode⟩ | ⟨-, hnone⟩
    · exact hmode
    · rw [hs] at hnone
      exact absurd rfl hnone.1
  subst hgroups
  refine ⟨mode, run_of_room (Nat.zero_le _) hu fun u' w hsplit hcount => ?_,
    hmode⟩
  have hle := hfirst.first u' (w ++ '(' :: v) (by rw [hsplit]; simp) (by omega)
  rw [hsplit, List.length_append, List.length_cons] at hle
  omega

end Scanner

namespace Parser

open Scanner

variable {τ σ : Type}

/-- The parse was stopped by a nest limit. -/
def TooDeep {α : Type} (outcome : Except ParseError α) : Prop :=
  ∃ e n, outcome = .error e ∧ e.cause = .tooDeep n

theorem pattern_mono {n m : Nat} {s : List Char} {t : Tree Atom}
    (h : Grammar.Pattern n s t) (hle : n ≤ m) : Grammar.Pattern m s t := by
  cases h with
  | emptyWord => exact .emptyWord
  | emptySet => exact .emptySet
  | regex hword hset hs => exact .regex hword hset (hs.mono hle)

/-- A parse that the limit has not stopped ends in the same way under every
higher one. -/
theorem parse_mono {f : SymbolFactory τ σ} {limit limit' : UInt32} {s : String}
    {made : τ} (hle : limit ≤ limit')
    (h : ¬ TooDeep ((⟨f, limit⟩ : Parser τ σ).parse s made).1) :
    ((⟨f, limit'⟩ : Parser τ σ).parse s made).1 =
      ((⟨f, limit⟩ : Parser τ σ).parse s made).1 := by
  cases hparse : ((⟨f, limit⟩ : Parser τ σ).parse s made).1 with
  | ok value =>
      obtain ⟨t, ht, hmake⟩ := parseList_eq_ok_iff.mp (Prod.ext hparse rfl)
      have hdeeper := pattern_mono ht (UInt32.le_iff_toNat_le.mp hle)
      have hsame :=
        (parseList_eq_ok_iff (p := ⟨f, limit'⟩)).mpr ⟨t, hdeeper, hmake⟩
      exact congrArg Prod.fst hsame
  | error e =>
      rw [parse_error_iff] at hparse ⊢
      obtain ⟨u, v, mode, groups, cause, hs, hu, hv, rfl⟩ :=
        firstError_eq_some_iff.mp hparse
      have hcause : ∀ n, cause ≠ .tooDeep n := by
        intro n hn
        exact h ⟨_, n, parse_error_iff.mpr hparse, (errorAt_cause _ _).trans hn⟩
      exact firstError_eq_some_iff.mpr ⟨u, v, mode, groups, cause, hs,
        run_mono hle (Nat.zero_le _) hu, halt_limit hv hcause, rfl⟩

/-- What the text and a parse with one group more say of the place where the
limit cuts a parse off: it is the first parenthesis inside as many groups as the
limit allows, and the other parse gets past it. -/
structure CutBehind {α : Type} (outcome : UInt32 → Except ParseError α)
    (limit : UInt32) (s u : List Char) : Prop where
  first : FirstInside limit.toNat s u
  passed : ∀ e, outcome (limit + 1) = .error e → u.length + 1 < e.position

section Cut

variable {f : SymbolFactory τ σ} {limit : UInt32} {pattern : String} {made : τ}
  {u : List Char} {e : ParseError} {n : UInt32}

theorem toNat_add_one (hmax : limit.toNat < 4294967295) :
    (limit + 1).toNat = limit.toNat + 1 := by
  rw [UInt32.toNat_add, UInt32.toNat_one]
  exact Nat.mod_eq_of_lt (by omega)

theorem cutBehind_of_tooDeep (hmax : limit.toNat < 4294967295)
    (h : ((⟨f, limit⟩ : Parser τ σ).parse pattern made).1 = .error e)
    (hcause : e.cause = .tooDeep n) :
    ∃ u, CutBehind
      (fun limit => ((⟨f, limit⟩ : Parser τ σ).parse pattern made).1)
      limit pattern.toList u := by
  obtain ⟨-, u, v, mode, hsplit, hmode, hu, -⟩ :=
    exists_run_of_tooDeep (parse_error_iff.mp h) hcause
  refine ⟨u, hsplit ▸ firstInside_of_run hu, fun e' he' => ?_⟩
  have hfound := parse_error_iff.mp he'
  rw [hsplit] at hfound
  exact passes_of_run (toNat_add_one hmax) hu hmode hfound

theorem tooDeep_of_cutBehind
    (h : CutBehind
      (fun limit => ((⟨f, limit⟩ : Parser τ σ).parse pattern made).1)
      limit pattern.toList u) :
    ∃ e, ((⟨f, limit⟩ : Parser τ σ).parse pattern made).1 = .error e ∧
      e.cause = .tooDeep limit ∧ e.position = u.length + 1 := by
  obtain ⟨hfirst, hpass⟩ := h
  obtain ⟨v, hsplit⟩ := hfirst.opens
  rw [hsplit] at hfirst
  obtain ⟨mode, hu, hmode⟩ := run_of_firstInside (limit + 1) hfirst
    fun e he => hpass e (parse_error_iff.mpr (hsplit ▸ he))
  obtain ⟨e, he, hcause, hposition⟩ := tooDeep_of_run (v := v) hu hmode
  exact ⟨e, parse_error_iff.mpr (hsplit ▸ he), hcause, hposition⟩

/-- A pattern without more parentheses than the limit is never too deep for
it. -/
theorem not_tooDeep_of_count_le
    (hcount : pattern.toList.count '(' ≤ limit.toNat) :
    ¬ TooDeep ((⟨f, limit⟩ : Parser τ σ).parse pattern made).1 := by
  rintro ⟨e, n, he, hcause⟩
  obtain ⟨-, u, v, mode, hsplit, -, hu, -⟩ :=
    exists_run_of_tooDeep (parse_error_iff.mp he) hcause
  have hgroups : 0 + u.count '(' = limit.toNat + u.count ')' := run_groups hu
  rw [hsplit, List.count_append, List.count_cons_self] at hcount
  omega

end Cut

/-- A nest limit only cuts a parse off. Under a higher limit the outcome is the
same unless the limit was the reason; it is the reason at the first parenthesis
inside as many groups as it allows, if the parse gets past that with one group
more; and it never is with as few parentheses in the pattern as it allows. -/
theorem nestLimit_only_cuts_off (f : SymbolFactory τ σ) (limit : UInt32)
    (pattern : String) (made : τ) :
    let outcome (limit : UInt32) :=
      ((⟨f, limit⟩ : Parser τ σ).parse pattern made).1
    (∀ limit', limit ≤ limit' → ¬ TooDeep (outcome limit) →
      outcome limit' = outcome limit) ∧
    (limit.toNat < 4294967295 →
      (TooDeep (outcome limit) ↔
        ∃ u, CutBehind outcome limit pattern.toList u) ∧
      ∀ u, CutBehind outcome limit pattern.toList u →
        ∃ e, outcome limit = .error e ∧ e.cause = .tooDeep limit ∧
          e.position = u.length + 1) ∧
    (pattern.toList.count '(' ≤ limit.toNat → ¬ TooDeep (outcome limit)) := by
  intro outcome
  refine ⟨fun limit' hle h => parse_mono hle h, fun hmax => ⟨⟨?_, ?_⟩, ?_⟩,
    not_tooDeep_of_count_le⟩
  · rintro ⟨e, n, he, hcause⟩
    exact cutBehind_of_tooDeep hmax he hcause
  · rintro ⟨u, hu⟩
    obtain ⟨e, he, hcause, -⟩ := tooDeep_of_cutBehind hu
    exact ⟨e, limit, he, hcause⟩
  · exact fun u hu => tooDeep_of_cutBehind hu

/-- One group in another, under every limit from one on. -/
theorem nestLimit_cuts_off_inner_group :
    let outcome (limit : UInt32) :=
      ((⟨.recorder, limit⟩ : Parser (Array Atom) Atom).parse "a(b(c))" #[]).1
    outcome 1 = .error ⟨.tooDeep 1, 4, ⟨3, 1⟩⟩ ∧
      (∃ u, CutBehind outcome 1 "a(b(c))".toList u) ∧
      ∀ limit, 2 ≤ limit → outcome limit = outcome 2 := by
  intro outcome
  have hcut :
      ((⟨.recorder, 1⟩ : Parser (Array Atom) Atom).parse "a(b(c))" #[]).1 =
      .error ⟨.tooDeep 1, 4, ⟨3, 1⟩⟩ :=
    parse_error_iff.mpr (by decide +kernel)
  obtain ⟨-, hplace, -⟩ := nestLimit_only_cuts_off .recorder 1 "a(b(c))" #[]
  obtain ⟨hsame, -, hfew⟩ := nestLimit_only_cuts_off .recorder 2 "a(b(c))" #[]
  refine ⟨hcut, (hplace (by decide)).1.mp ⟨_, 1, hcut, rfl⟩,
    fun limit hle => ?_⟩
  exact hsame limit hle (hfew (by decide))

end Parser

end PatternSyntax
