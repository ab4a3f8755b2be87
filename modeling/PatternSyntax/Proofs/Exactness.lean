import PatternSyntax.Proofs.Completeness

/-!
# The parser and the grammar agree

A parse succeeds exactly on the patterns of the grammar, and returns their
trees. This holds for every factory, whatever state it keeps: the tree of the
grammar is one of atoms, and the parser has made its symbols from left to right.
With the recorder in the factory's place nothing is made, and the two trees are
the same.
-/

namespace PatternSyntax.Parser

variable {τ σ : Type}

theorem parseList_emptyWord (p : Parser τ σ) (made : τ) :
    p.parseList [emptyWordMark] made = (.ok .emptyWord, made) := by
  rw [parseList, if_pos rfl]

theorem parseList_emptySet (p : Parser τ σ) (made : τ) :
    p.parseList [emptySetMark] made = (.ok .emptySet, made) := by
  rw [parseList, if_neg (by decide), if_pos rfl]

theorem parseList_sound {p : Parser τ σ} {pattern : List Char} {made made' : τ}
    {value : Tree σ} (h : p.parseList pattern made = (.ok value, made')) :
    ∃ t, Grammar.Pattern p.nestLimit.toNat pattern t ∧
      p.factory.makeTree t made = (value, made') := by
  rw [parseList] at h
  split at h
  · next hword =>
      cases h
      exact ⟨.emptyWord, hword ▸ .emptyWord, rfl⟩
  · next hword =>
      split at h
      · next hset =>
          cases h
          exact ⟨.emptySet, hset ▸ .emptySet, rfl⟩
      · next hset =>
          split at h
          · next whole made₁ hr =>
              have hn : (State.ofList pattern).openGroups.toNat +
                  p.nestLimit.toNat =
                  p.nestLimit.toNat := Nat.zero_add _
              obtain ⟨s, t, hs, hrest, hmake, -⟩ := regex_sound hn hr
              split at h
              · next hend =>
                  cases h
                  have hpattern : pattern = s := by
                    rw [Input.rest_of_peek_none hend, List.append_nil] at hrest
                    exact hrest
                  subst hpattern
                  exact ⟨t, .regex hword hset hs, hmake⟩
              · cases h
          · cases h

theorem parseList_complete {p : Parser τ σ} {pattern : List Char}
    {t : Tree Atom} (h : Grammar.Pattern p.nestLimit.toNat pattern t)
    (made : τ) :
    p.parseList pattern made =
      (.ok (p.factory.makeTree t made).1, (p.factory.makeTree t made).2) := by
  cases h with
  | emptyWord => exact parseList_emptyWord p made
  | emptySet => exact parseList_emptySet p made
  | regex hword hset hs =>
      have hrest : (State.ofList pattern).input.rest = pattern ++ [] :=
        (List.append_nil pattern).symm
      have hn : (State.ofList pattern).openGroups.toNat + p.nestLimit.toNat ≤
          p.nestLimit.toNat := Nat.le_of_eq (Nat.zero_add _)
      obtain ⟨whole, hregex, hvalue, hend, -⟩ :=
        regex_complete hs made hrest hn followsRegex_none
      rw [parseList, if_neg hword, if_neg hset, hregex]
      dsimp only
      rw [peek_eq_head? hend, hvalue]
      rfl

/-- A parse succeeds with a tree exactly if the grammar derives the pattern and
the tree is the derived one with its symbols made. -/
theorem parseList_eq_ok_iff {p : Parser τ σ} {pattern : List Char}
    {made made' : τ} {value : Tree σ} :
    p.parseList pattern made = (.ok value, made') ↔
      ∃ t, Grammar.Pattern p.nestLimit.toNat pattern t ∧
        p.factory.makeTree t made = (value, made') := by
  constructor
  · exact parseList_sound
  · rintro ⟨t, ht, hmake⟩
    rw [parseList_complete ht, hmake]

/-- With a factory that keeps no state, the tree is the derived one
relabelled. -/
theorem parse_pure_eq_ok_iff {symbol : Atom → σ} {limit : UInt32}
    {pattern : String} {t : Tree σ} :
    ((⟨.pure symbol, limit⟩ : Parser Unit σ).parse pattern ()).1 = .ok t ↔
      ∃ u, Grammar.Pattern limit.toNat pattern.toList u ∧ u.map symbol = t := by
  constructor
  · intro h
    obtain ⟨u, hu, hmake⟩ := parseList_sound (Prod.ext h rfl)
    rw [SymbolFactory.makeTree_pure] at hmake
    exact ⟨u, hu, congrArg Prod.fst hmake⟩
  · rintro ⟨u, hu, rfl⟩
    have hparse := parseList_complete (p := ⟨.pure symbol, limit⟩) hu ()
    rw [SymbolFactory.makeTree_pure] at hparse
    rw [parse, hparse]

/-- With the recorder, the parser accepts exactly the patterns of the grammar,
each with its tree. -/
theorem parse_recorder_eq_ok_iff (limit : UInt32) (pattern : String)
    (log : Array Atom) (t : Tree Atom) :
    ((⟨.recorder, limit⟩ : Parser (Array Atom) Atom).parse pattern log).1 =
      .ok t ↔ Grammar.Pattern limit.toNat pattern.toList t := by
  constructor
  · intro h
    obtain ⟨u, hu, hmake⟩ := parseList_eq_ok_iff.mp (Prod.ext h rfl)
    rw [SymbolFactory.makeTree_recorder] at hmake
    obtain ⟨rfl, -⟩ := Prod.mk.inj hmake
    exact hu
  · intro h
    have hparse := parseList_complete (p := ⟨.recorder, limit⟩) h log
    rw [SymbolFactory.makeTree_recorder] at hparse
    rw [parse, hparse]

/-- Three branches, of which the last is innermost. -/
example :
    ((⟨.recorder, 0⟩ : Parser (Array Atom) Atom).parse "a|b*|c" #[]).1 =
      .ok (.alt (.literal (.char 'a'))
        (.alt (.star (.literal (.char 'b'))) (.literal (.char 'c')))) := by
  cbv

end PatternSyntax.Parser
