import PatternSyntax.Proofs.RoundTrip
import PatternSyntax.Proofs.SymbolRequests

/-!
# Bracket expressions that were written out

A bracket expression is read up to its closing bracket, and what stands behind
that is not looked at. So reading back what was spelled can be said in front of
any text, and for any factory: the reader has come to the end of the spelling,
and has asked for one symbol.

Which bracket expression it has asked for is one of the grammar, whose text is
its spelling. A bracket expression that captures a dash is none of the grammar.
Its spelling may be read all the same, but then as another one.

A class that is printed never captures a dash. The only range that may begin
with one is listed first, so the printed text reads back as one item for each
range, in that order. The class of the text is the class that was printed. All
that stands against it are characters without a spelling, a class without
ranges, and the two marks.
-/

namespace PatternSyntax

namespace Parser

open Grammar

variable {τ σ : Type} {p : Parser τ σ} {st : State} {h : st.peek = some '['}
  {made : τ}

/-- The bracket expression that comes next is read up to `r`. For it `b` was
handed to the factory and nothing else, and the reply has become the leaf. -/
def Hands (p : Parser τ σ) (st : State) (h : st.peek = some '[') (made : τ)
    (b : Bracket) (r : Read st (Tree σ)) : Prop :=
  ∃ symbol made',
    p.logging.bracket st h (made, []) =
      (.ok r, (made', [(.bracket b, symbol)])) ∧
    r.value = .literal symbol

/-- A bracket expression of the grammar is handed over, whatever text comes
behind it. -/
theorem hands_of_isBracket {s tail : List Char} {b : Bracket}
    (hs : IsBracket s b) (hrest : st.input.rest = s ++ tail) :
    ∃ r, p.Hands st h made b r ∧ st.input.Leads s r.next.input := by
  have hreturns :
      Returns (p.logging.bracket st h (made, [])) _ tail st.openGroups :=
    bracket_complete hs (made, []) hrest
  have hasks : Asks _ st.input (made, []) (p.logging.bracket st h (made, [])) :=
    bracket_asks (made, [])
  obtain ⟨r, hr, hvalue, htail, -⟩ := hreturns
  rw [hr] at hasks
  obtain ⟨s', atoms, -, hlead, -⟩ := hasks
  have hsame : s' = s := by
    rw [hlead.1, htail] at hrest
    exact List.append_cancel_right hrest
  subst hsame
  exact ⟨r, ⟨_, _, hr, hvalue⟩, hlead⟩

/-- What is handed over is a bracket expression of the grammar. -/
theorem hands_of_ok {r : Read st (Tree σ)} {after : τ × List (Atom × σ)}
    (hr : p.logging.bracket st h (made, []) = (.ok r, after)) :
    ∃ s b, IsBracket s b ∧ p.Hands st h made b r := by
  obtain ⟨s, t, hs, hrest, hmake, -⟩ := bracket_sound 0 hr
  have hopen : st.input.rest = '[' :: st.input.advance.rest :=
    Input.rest_of_peek h
  cases hs with
  | literal hc =>
      obtain ⟨rfl, -⟩ := List.cons.inj (hopen.symm.trans hrest)
      exact absurd hc (by decide)
  | @bracket _ _ b hb =>
      obtain ⟨hvalue, rfl⟩ := Prod.mk.inj hmake
      exact ⟨s, b, hb, _, _, hr, hvalue.symm⟩

theorem Hands.unique {b b' : Bracket} {r r' : Read st (Tree σ)}
    (hb : p.Hands st h made b r) (hb' : p.Hands st h made b' r') : b = b' := by
  obtain ⟨symbol, made₁, hr, -⟩ := hb
  obtain ⟨symbol', made₂, hr', -⟩ := hb'
  have hlog := congrArg (fun outcome => outcome.2.2) (hr.symm.trans hr')
  simp only [List.cons.injEq, Prod.mk.injEq, Atom.bracket.injEq] at hlog
  exact hlog.1.1

theorem Hands.isBracket {b : Bracket} {r : Read st (Tree σ)}
    (hb : p.Hands st h made b r) :
    ∃ s, IsBracket s b := by
  have hhands := hb
  obtain ⟨symbol, made', hr, -⟩ := hb
  obtain ⟨s, b', hs, hhands'⟩ := hands_of_ok hr
  rw [hhands.unique hhands']
  exact ⟨s, hs⟩

/-- A bracket expression with literals for its bounds, and these in order, is
read back from its spelling exactly if it captures no dash. Otherwise reading
fails, or what is handed over has other items. -/
theorem bracket_reads_back_iff (p : Parser τ σ) (made : τ) {b : Bracket}
    (hbounds : ∀ item ∈ b.items, item.lo ≤ item.hi ∧ isLiteral item.lo = true ∧
      isLiteral item.hi = true)
    {st : State} {tail : List Char} (h : st.peek = some '[')
    (hrest : st.input.rest = b.spelling ++ tail) :
    ((∃ r, p.Hands st h made b r ∧ st.input.Leads b.spelling r.next.input) ↔
      KeepDashes b.items) ∧
    (¬ KeepDashes b.items →
      (∃ e, (p.logging.bracket st h (made, [])).1 = .error e) ∨
        ∃ b' r, p.Hands st h made b' r ∧ b'.items ≠ b.items) := by
  refine ⟨⟨?_, ?_⟩, ?_⟩
  · intro hread
    obtain ⟨r, hhands, -⟩ := hread
    obtain ⟨s, hs⟩ := hhands.isBracket
    exact hs.keepDashes
  · intro hkeep
    exact hands_of_isBracket
      (isBracket_spelling (items_of_keepDashes hbounds hkeep)) hrest
  · intro hcaptured
    cases hrun : p.logging.bracket st h (made, []) with
    | mk result after =>
        cases result with
        | error e => exact Or.inl ⟨e, rfl⟩
        | ok r =>
            obtain ⟨s, b', hs, hhands⟩ := hands_of_ok hrun
            refine Or.inr ⟨b', r, hhands, fun hitems => ?_⟩
            rw [← hitems] at hcaptured
            exact hcaptured hs.keepDashes

/-- Dashes as bounds on both sides and behind a range, which are kept, and one
behind a single character, which is not. -/
theorem bracket_reads_back_dashes :
    let p : Parser (Array Atom) Atom := ⟨.recorder, 0⟩
    let kept : Bracket :=
      ⟨true, [.range '+' '-', .range '-' '/', .single 'é'], by decide⟩
    let captured : Bracket := ⟨false, [.single '+', .range '-' '/'], by decide⟩
    let st := State.ofList (kept.spelling ++ ['-', ']', '*'])
    let st' := State.ofList (captured.spelling ++ ['-', ']', '*'])
    (∃ r, p.Hands st rfl #[] kept r ∧
      st.input.Leads kept.spelling r.next.input) ∧
      ¬ ∃ r, p.Hands st' rfl #[] captured r ∧
        st'.input.Leads captured.spelling r.next.input := by
  intro p kept captured st st'
  have hkept := bracket_reads_back_iff p #[] (b := kept) (by decide)
    (show st.peek = _ from rfl) rfl
  have hcaptured :=
    bracket_reads_back_iff p #[] (b := captured) (by decide)
      (show st'.peek = _ from rfl) rfl
  exact ⟨hkept.1.mpr (by decide),
    fun hread => absurd (hcaptured.1.mp hread) (by decide)⟩

end Parser

/-! ## Classes in the text that is printed for them -/

/-- At most one range that begins with a dash, and then the others,
ascending. -/
def DashFirst (ranges listed : List CharRange) : Prop :=
  ∃ dashed others, listed = dashed ++ others ∧ listed.Perm ranges ∧
    dashed.length ≤ 1 ∧
    (∀ r ∈ dashed, r.lo = '-') ∧ (∀ r ∈ others, r.lo ≠ '-') ∧
    others.Pairwise CharRange.Before

namespace CharClass

theorem dashFirst_printOrder {ranges : List CharRange} (h : Separated ranges) :
    DashFirst ranges (printOrder ranges) := by
  refine ⟨ranges.filter fun r => r.lo == '-',
    ranges.filter fun r => r.lo != '-', rfl, printOrder_perm ranges,
    h.lo_inj '-', fun r hr => ?_, fun r hr => ?_, h.2.filter _⟩
  · rw [List.mem_filter, beq_iff_eq] at hr
    exact hr.2
  · rw [List.mem_filter, bne_iff_ne] at hr
    exact hr.2

theorem toPattern_ne_singleton_iff {s : CharClass} {c : Char} :
    s.toPattern.toList ≠ [c] ↔ s ≠ single c := by
  rw [← String.toList_singleton, ne_eq, String.toList_inj,
    toPattern_eq_singleton_iff]

/-- A class is read back from its text exactly if it is spellable and no mark.
In front of any other text, a bracket expression that was printed for a class is
handed over with one item for each range, the one that begins with a dash
first. -/
theorem toPattern_reads_back_iff {s : CharClass} (hmade : ∃ a, ofAtom a = s) :
    (parse s.toPattern = .ok (.literal s) ↔
      s.Spellable ∧ s ≠ single emptyWordMark ∧ s ≠ single emptySetMark) ∧
    (s.Spellable → (∀ c, s.toPattern ≠ String.singleton c) →
      ∃ b listed, b.negated = s.negated ∧
        b.items = listed.map CharRange.toItem ∧
        DashFirst s.ranges listed ∧
        ∀ {τ σ : Type} (p : Parser τ σ) (st : State) (h : st.peek = some '[')
          (made : τ) (tail : List Char),
          st.input.rest = s.toPattern.toList ++ tail →
            ∃ r, p.Hands st h made b r ∧
              st.input.Leads s.toPattern.toList r.next.input) := by
  obtain ⟨a, rfl⟩ := hmade
  have hcanonical := canonical_ofAtom a
  refine ⟨⟨?_, ?_⟩, ?_⟩
  · intro hparse
    rw [parse, parseWithin_eq_ok_iff] at hparse
    obtain ⟨u, hpattern, hu⟩ := hparse
    rw [← toPattern_ne_singleton_iff, ← toPattern_ne_singleton_iff]
    generalize (ofAtom a).toPattern.toList = text at hpattern ⊢
    cases hpattern with
    | emptyWord => cases hu
    | emptySet => cases hu
    | regex hword hset hregex =>
        refine ⟨?_, hword, hset⟩
        cases u with
        | literal a' =>
            have hspellable :=
              Grammar.spellable_of_regex hregex a' (List.mem_singleton_self a')
            rw [← Tree.literal.inj hu]
            exact hspellable
        | _ => cases hu
  · intro hclass
    obtain ⟨hspellable, hword, hset⟩ := hclass
    obtain ⟨a', ha', hbase⟩ := exists_atom hcanonical hspellable
    rw [← toPattern_ne_singleton_iff] at hword hset
    rw [parse, parseWithin_eq_ok_iff]
    exact ⟨.literal a', .regex hword hset (.last (.last (.once (hbase _)))),
      congrArg _ ha'⟩
  · intro hspellable hbare
    refine ⟨(ofAtom a).toBracket hspellable.1, printOrder (ofAtom a).ranges,
      rfl, rfl, dashFirst_printOrder hcanonical, ?_⟩
    intro τ σ p st h made tail hrest
    rcases (ofAtom a).toPattern_cases with ⟨c, -, htext⟩ | htext
    · exact absurd htext (hbare c)
    · rw [htext] at hrest ⊢
      exact Parser.hands_of_isBracket
        (isBracket_toBracketText hcanonical hspellable) hrest

/-- A dash in the middle of the class, printed in front of the others. -/
theorem toPattern_reads_back_dash :
    let s : CharClass := ⟨false, [⟨'!', '!'⟩, ⟨'-', '-'⟩, ⟨'a', 'ε'⟩]⟩
    let p : Parser (Array Atom) Atom := ⟨.recorder, 0⟩
    let st := State.ofList (s.toPattern.toList ++ ['-', 'z', ']'])
    (∃ a, ofAtom a = s) ∧ parse s.toPattern = .ok (.literal s) ∧
      ∃ h b listed r, p.Hands st h #[] b r ∧
        b.items = listed.map CharRange.toItem ∧
        DashFirst s.ranges listed ∧
        st.input.Leads s.toPattern.toList r.next.input := by
  intro s p st
  have hmade : ∃ a, ofAtom a = s := by
    let b : Bracket :=
      ⟨false, [.range 'a' 'ε', .single '-', .single '!'], by decide⟩
    have hmerged :
        mergeRanges [⟨'a', 'ε'⟩, ⟨'-', '-'⟩, ⟨'!', '!'⟩] = s.ranges :=
      mergeRanges_of_perm (by decide) ⟨by decide, by simp [s, CharRange.Before]⟩
    exact ⟨.bracket b, congrArg (CharClass.mk false) hmerged⟩
  obtain ⟨hparse, hhands⟩ := toPattern_reads_back_iff hmade
  have hbare : ∀ c, s.toPattern ≠ String.singleton c := by
    intro c htext
    have hs := toPattern_eq_singleton_iff.mp htext
    simp [s, single] at hs
  obtain ⟨b, listed, -, hitems, horder, hread⟩ := hhands (by decide) hbare
  have hp : st.peek = some '[' := by decide +kernel
  obtain ⟨r, hr, hlead⟩ := hread p st hp #[] _ rfl
  exact ⟨hmade, hparse.mpr (by decide), hp, b, listed, r, hr, hitems,
    horder, hlead⟩

end CharClass

end PatternSyntax
