import PatternSyntax.Proofs.BracketReading

/-!
# How far the reader of brackets has come

An error is placed by counting the characters that were read before it. For the
reader of brackets this count belongs to a text, the one from the opening
bracket on, and of that text only one thing matters. It has no closing bracket
in it, whether the reader has come to its end or failed on the way. So an error
of this reader is always one in front of the closing bracket, and the missing
bracket itself is left to its caller.
-/

namespace PatternSyntax

namespace Input

/-- From the one input to the other, exactly this text was read. -/
def Leads (i : Input) (s : List Char) (j : Input) : Prop :=
  i.rest = s ++ j.rest ∧ j.consumed = i.consumed + s.length

variable {i j k : Input} {s s' : List Char} {c : Char}

theorem Leads.refl (i : Input) : i.Leads [] i :=
  ⟨rfl, rfl⟩

theorem Leads.trans (h : i.Leads s j) (h' : j.Leads s' k) :
    i.Leads (s ++ s') k := by
  obtain ⟨hrest, hconsumed⟩ := h
  obtain ⟨hrest', hconsumed'⟩ := h'
  refine ⟨?_, ?_⟩
  · rw [hrest, hrest', List.append_assoc]
  · rw [hconsumed', hconsumed, List.length_append, Nat.add_assoc]

theorem leads_advance (h : i.peek = some c) : i.Leads [c] i.advance := by
  refine ⟨rest_of_peek h, ?_⟩
  rw [advance, rest_of_peek h]
  rfl

end Input

/-! ## Inside the brackets -/

namespace Bracket

variable {i j : Input} {e : ParseError}

/-- A text within the brackets was read. -/
def ReadsInside (i j : Input) : Prop :=
  ∃ s, i.Leads s j ∧ ']' ∉ s

/-- The reader of a bracket expression fails in front of its closing bracket,
and not for want of it. -/
def FailsInside (i : Input) (e : ParseError) : Prop :=
  ∃ j, ReadsInside i j ∧ e.position = j.position ∧
    ∀ found, e.cause ≠ .unclosed ']' found

theorem ReadsInside.refl (i : Input) : ReadsInside i i :=
  ⟨[], .refl i, List.not_mem_nil⟩

theorem ReadsInside.trans {k : Input} (h : ReadsInside i j)
    (h' : ReadsInside j k) :
    ReadsInside i k := by
  obtain ⟨s, hs, hclose⟩ := h
  obtain ⟨s', hs', hclose'⟩ := h'
  exact ⟨s ++ s', hs.trans hs',
    fun h => (List.mem_append.mp h).elim hclose hclose'⟩

theorem readsInside_advance {c : Char} (hp : i.peek = some c) (hc : c ≠ ']') :
    ReadsInside i i.advance :=
  ⟨[c], Input.leads_advance hp, fun h => hc (List.mem_singleton.mp h).symm⟩

theorem readsInside_literal {c : Char} (hp : i.peek = some c)
    (hc : isLiteral c = true) :
    ReadsInside i i.advance := by
  refine readsInside_advance hp ?_
  rintro rfl
  exact absurd hc (by decide)

theorem FailsInside.after (h : ReadsInside i j) (he : FailsInside j e) :
    FailsInside i e := by
  obtain ⟨k, hk, hfails⟩ := he
  exact ⟨k, h.trans hk, hfails⟩

theorem failsInside_unexpected (i : Input) : FailsInside i i.unexpected :=
  ⟨i, .refl i, rfl, fun _ h => nomatch h⟩

theorem readUpper_inside {start : Nat} {lo : Char} {item : BracketItem}
    (h : readUpper start lo i = .ok (item, j)) : ReadsInside i j := by
  rw [readUpper] at h
  split at h
  · next hi hp =>
      split at h
      · next hlit =>
          split at h
          · cases h
            exact readsInside_literal hp hlit
          · cases h
      · cases h
  · cases h

theorem readUpper_error {start : Nat} {lo : Char}
    (h : readUpper start lo i = .error e) :
    FailsInside i e := by
  rw [readUpper] at h
  split at h
  · split at h
    · split at h
      · cases h
      · cases h
        refine ⟨i, .refl i, rfl, fun found h => ?_⟩
        cases h
    · cases h
      exact failsInside_unexpected i
  · cases h
    exact failsInside_unexpected i

theorem readItem_inside {lo : Char} {item : BracketItem} (hp : i.peek = some lo)
    (hlo : isLiteral lo = true) (h : readItem i lo = .ok (item, j)) :
    ReadsInside i j := by
  rw [readItem] at h
  split at h
  · next hdash =>
      have hlower := readsInside_literal hp hlo
      have hsign := readsInside_advance hdash (by decide)
      exact (hlower.trans hsign).trans (readUpper_inside h)
  · cases h
    exact readsInside_literal hp hlo

theorem readItem_error {lo : Char} (hp : i.peek = some lo)
    (hlo : isLiteral lo = true) (h : readItem i lo = .error e) :
    FailsInside i e := by
  rw [readItem] at h
  split at h
  · next hdash =>
      have hlower := readsInside_literal hp hlo
      have hsign := readsInside_advance hdash (by decide)
      exact ((readUpper_error h).after hsign).after hlower
  · cases h

theorem readItems_inside {start i : Input}
    {le : i.rest.length ≤ start.rest.length} {earlier items : List BracketItem}
    {body : Input.Rest start}
    (h : readItems start i le earlier = .ok (items, body)) :
    ReadsInside i body.input := by
  rcases endsItems_or_literal i.peek with hend | ⟨lo, hp, hlo⟩
  · rw [readItems_stop hend] at h
    cases h
    exact .refl i
  · cases hr : readItem i lo with
    | error e =>
        rw [readItems_error hp hlo hr] at h
        cases h
    | ok read =>
        obtain ⟨item, j⟩ := read
        have hlt := readItem_lt hp hr
        rw [readItems_item hp hlo hr] at h
        exact (readItem_inside hp hlo hr).trans (readItems_inside h)
termination_by i.rest.length

theorem readItems_fails {start i : Input}
    {le : i.rest.length ≤ start.rest.length} {earlier : List BracketItem}
    {e : ParseError} (h : readItems start i le earlier = .error e) :
    FailsInside i e := by
  rcases endsItems_or_literal i.peek with hend | ⟨lo, hp, hlo⟩
  · rw [readItems_stop hend] at h
    cases h
  · cases hr : readItem i lo with
    | error e' =>
        rw [readItems_error hp hlo hr] at h
        cases h
        exact readItem_error hp hlo hr
    | ok read =>
        obtain ⟨item, j⟩ := read
        have hlt := readItem_lt hp hr
        rw [readItems_item hp hlo hr] at h
        exact (readItems_fails h).after (readItem_inside hp hlo hr)
termination_by i.rest.length

theorem ofRead_fails {start : Input} {negated : Bool}
    {le : i.rest.length ≤ start.rest.length}
    (h : ofRead negated (readItems start i le []) = .error e) :
    FailsInside i e := by
  cases hread : readItems start i le [] with
  | error e' =>
      rw [hread, ofRead] at h
      cases h
      exact readItems_fails hread
  | ok read =>
      obtain ⟨items, body⟩ := read
      rw [hread, ofRead] at h
      split at h
      · cases h
      · cases h
        refine ⟨body.input, readItems_inside hread, rfl, fun found h => ?_⟩
        cases h

theorem readBody_inside {b : Bracket} {body : Input.Rest i}
    (h : readBody i = .ok (b, body)) :
    ReadsInside i body.input := by
  rw [readBody] at h
  split at h
  · next hcaret =>
      exact (readsInside_advance hcaret (by decide)).trans
        (readItems_inside (ofRead_eq_ok.mp h).2)
  · exact readItems_inside (ofRead_eq_ok.mp h).2

theorem readBody_error (h : readBody i = .error e) : FailsInside i e := by
  rw [readBody] at h
  split at h
  · next hcaret =>
      exact (ofRead_fails h).after (readsInside_advance hcaret (by decide))
  · exact ofRead_fails h

end Bracket

end PatternSyntax
