import PatternSyntax.Bracket.Reader
import PatternSyntax.Grammar

/-!
# The reader of brackets reads the grammar of brackets

The grammar divides a bracket's text into items by one side condition: a
character stands for itself only if no dash comes behind it. The reader makes
the same division by looking one character ahead, and it stops at the first
character that is no literal, which is where the text of the items must end.
So both directions are inductions over the items, and the lookahead is the only
thing in them that needs care: the last item's lookahead is the character
behind all items, and that one is no dash because a dash is a literal.
-/

namespace PatternSyntax.Bracket

/-- What may stand behind the items: nothing, or a character that is no
literal. -/
def EndsItems (next : Option Char) : Prop :=
  ∀ c, next = some c → isLiteral c = false

theorem EndsItems.ne_dash {next : Option Char} (h : EndsItems next) :
    next ≠ some '-' := by
  intro hdash
  have := h '-' hdash
  exact absurd this (by decide)

/-! ## One item -/

theorem range?_eq_some {lo hi : Char} {item : BracketItem}
    (h : BracketItem.range? lo hi = some item) :
    lo ≤ hi ∧ item = .range lo hi := by
  rw [BracketItem.range?] at h
  split at h
  · next hle => exact ⟨hle, (Option.some.inj h).symm⟩
  · cases h

theorem readUpper_sound {start : Nat} {lo : Char} {i j : Input}
    {item : BracketItem} (h : readUpper start lo i = .ok (item, j)) :
    ∃ hi, isLiteral hi = true ∧ lo ≤ hi ∧ item = .range lo hi ∧
      i.rest = hi :: j.rest := by
  rw [readUpper] at h
  split at h
  · next hi hp =>
      split at h
      · next hlit =>
          split at h
          · next item' hr =>
              obtain ⟨hle, hitem⟩ := range?_eq_some hr
              cases h
              exact ⟨hi, hlit, hle, hitem, Input.rest_of_peek hp⟩
          · cases h
      · cases h
  · cases h

theorem readUpper_complete {start : Nat} {lo hi : Char} {i : Input}
    {rest : List Char} (hlit : isLiteral hi = true) (hle : lo ≤ hi)
    (h : i.rest = hi :: rest) :
    readUpper start lo i = .ok (.range lo hi, i.advance) := by
  rw [readUpper, Input.peek_of_rest h]
  simp [hlit, BracketItem.range?, hle]

/-- One item is read as the grammar reads it: a range, or a single character
that no dash follows. -/
theorem readItem_sound {i j : Input} {lo : Char} {item : BracketItem}
    (hp : i.peek = some lo) (h : readItem i lo = .ok (item, j)) :
    (item = .single lo ∧ i.rest = lo :: j.rest ∧ j.peek ≠ some '-') ∨
      ∃ hi, isLiteral hi = true ∧ lo ≤ hi ∧ item = .range lo hi ∧
        i.rest = lo :: '-' :: hi :: j.rest := by
  have hrest := Input.rest_of_peek hp
  rw [readItem] at h
  split at h
  · next hdash =>
      obtain ⟨hi, hlit, hle, hitem, hupper⟩ := readUpper_sound h
      refine Or.inr ⟨hi, hlit, hle, hitem, ?_⟩
      rw [hrest, Input.rest_of_peek hdash, hupper]
  · next hdash =>
      cases h
      exact Or.inl ⟨rfl, hrest, hdash⟩

theorem readItem_single {i : Input} {lo : Char} {rest : List Char}
    (h : i.rest = lo :: rest) (hdash : rest.head? ≠ some '-') :
    readItem i lo = .ok (.single lo, i.advance) := by
  rw [readItem, if_neg]
  rwa [Input.peek, Input.advance_rest h]

theorem readItem_range {i : Input} {lo hi : Char} {rest : List Char}
    (hlit : isLiteral hi = true) (hle : lo ≤ hi)
    (h : i.rest = lo :: '-' :: hi :: rest) :
    readItem i lo = .ok (.range lo hi, i.advance.advance.advance) := by
  have hdash := Input.advance_rest h
  rw [readItem, if_pos (Input.peek_of_rest hdash)]
  exact readUpper_complete hlit hle (Input.advance_rest hdash)

/-! ## All items

The three equations of the loop. Nothing below opens its definition. -/

theorem endsItems_or_literal (next : Option Char) :
    EndsItems next ∨ ∃ lo, next = some lo ∧ isLiteral lo = true := by
  cases next with
  | none => exact Or.inl fun c hc => by cases hc
  | some lo =>
      cases hlo : isLiteral lo with
      | true => exact Or.inr ⟨lo, rfl, hlo⟩
      | false =>
          refine Or.inl fun c hc => ?_
          cases hc
          exact hlo

theorem readItems_stop {start i : Input}
    {le : i.rest.length ≤ start.rest.length} {earlier : List BracketItem}
    (h : EndsItems i.peek) :
    readItems start i le earlier = .ok (earlier.reverse, ⟨i, le⟩) := by
  rw [readItems]
  split
  · next lo hp => rw [if_neg (by rw [h lo hp]; exact Bool.false_ne_true)]
  · rfl

theorem readItems_item {start i j : Input}
    {le : i.rest.length ≤ start.rest.length} {earlier : List BracketItem}
    {lo : Char} {item : BracketItem} (hp : i.peek = some lo)
    (hlo : isLiteral lo = true) (hr : readItem i lo = .ok (item, j)) :
    readItems start i le earlier =
      readItems start j (Nat.le_trans (Nat.le_of_lt (readItem_lt hp hr)) le)
        (item :: earlier) := by
  rw [readItems]
  split
  · next lo' hp' =>
      cases hp.symm.trans hp'
      rw [if_pos hlo]
      split
      · next item' j' hr' =>
          cases hr.symm.trans hr'
          rfl
      · next e hr' => cases hr.symm.trans hr'
  · next hp' => cases hp.symm.trans hp'

theorem readItems_error {start i : Input}
    {le : i.rest.length ≤ start.rest.length} {earlier : List BracketItem}
    {lo : Char} {e : ParseError} (hp : i.peek = some lo)
    (hlo : isLiteral lo = true) (hr : readItem i lo = .error e) :
    readItems start i le earlier = .error e := by
  rw [readItems]
  split
  · next lo' hp' =>
      cases hp.symm.trans hp'
      rw [if_pos hlo]
      split
      · next item' j' hr' => cases hr.symm.trans hr'
      · next e' hr' =>
          cases hr.symm.trans hr'
          rfl
  · next hp' => cases hp.symm.trans hp'

theorem readItems_sound {start i : Input}
    {le : i.rest.length ≤ start.rest.length} {earlier items : List BracketItem}
    {body : Input.Rest start}
    (h : readItems start i le earlier = .ok (items, body)) :
    ∃ s later, Grammar.Items s later ∧ i.rest = s ++ body.input.rest ∧
      items = earlier.reverse ++ later := by
  rcases endsItems_or_literal i.peek with hend | ⟨lo, hp, hlo⟩
  · rw [readItems_stop hend] at h
    cases h
    exact ⟨[], [], .nil, rfl, (List.append_nil _).symm⟩
  · cases hr : readItem i lo with
    | error e =>
        rw [readItems_error hp hlo hr] at h
        cases h
    | ok read =>
        obtain ⟨item, j⟩ := read
        have hlt := readItem_lt hp hr
        rw [readItems_item hp hlo hr] at h
        obtain ⟨s, later, hs, hj, hitems⟩ := readItems_sound h
        rw [List.reverse_cons, List.append_assoc] at hitems
        rcases readItem_sound hp hr with ⟨rfl, hi, hdash⟩
          | ⟨hi, hlit, hle, rfl, hrest⟩
        · refine ⟨lo :: s, _, .single hlo ?_ hs, ?_, hitems⟩
          · -- What comes behind the item is the next item or, if there is none,
            -- the body's end.
            intro hhead
            apply hdash
            rw [Input.peek, hj, List.head?_append, hhead]
            rfl
          · rw [hi, hj]
            rfl
        · refine ⟨lo :: '-' :: hi :: s, _, .range hlo hlit hle hs, ?_, hitems⟩
          rw [hrest, hj]
          rfl
termination_by i.rest.length

/-- The loop stops before the first character that is no literal. -/
theorem readItems_ends {start i : Input}
    {le : i.rest.length ≤ start.rest.length} {earlier items : List BracketItem}
    {body : Input.Rest start}
    (h : readItems start i le earlier = .ok (items, body)) :
    EndsItems body.input.peek := by
  rcases endsItems_or_literal i.peek with hend | ⟨lo, hp, hlo⟩
  · rw [readItems_stop hend] at h
    cases h
    exact hend
  · cases hr : readItem i lo with
    | error e =>
        rw [readItems_error hp hlo hr] at h
        cases h
    | ok read =>
        obtain ⟨item, j⟩ := read
        have hlt := readItem_lt hp hr
        rw [readItems_item hp hlo hr] at h
        exact readItems_ends h
termination_by i.rest.length

theorem readItems_complete {s : List Char} {later : List BracketItem}
    (hs : Grammar.Items s later) :
    ∀ {start i : Input} {le : i.rest.length ≤ start.rest.length}
      {earlier : List BracketItem} {tail : List Char},
      i.rest = s ++ tail → EndsItems tail.head? →
      ∃ body,
        readItems start i le earlier = .ok (earlier.reverse ++ later, body) ∧
        body.input.rest = tail := by
  induction hs with
  | nil =>
      intro start i le earlier tail hi hend
      have hpeek : i.peek = tail.head? := by
        rw [Input.peek, hi, List.nil_append]
      rw [readItems_stop (hpeek ▸ hend), List.append_nil]
      exact ⟨_, rfl, hi⟩
  | @single c rest items hc hdash _ ih =>
      intro start i le earlier tail hi hend
      have hnext : (rest ++ tail).head? ≠ some '-' := by
        cases rest with
        | nil => exact hend.ne_dash
        | cons d rest => exact hdash
      rw [readItems_item (Input.peek_of_rest hi) hc (readItem_single hi hnext)]
      obtain ⟨body, hbody, htail⟩ := ih (Input.advance_rest hi) hend
      rw [List.reverse_cons, List.append_assoc] at hbody
      exact ⟨body, hbody, htail⟩
  | @range lo hi rest items hlo hhi hle _ ih =>
      intro start i le earlier tail hrest hend
      rw [readItems_item (Input.peek_of_rest hrest) hlo
        (readItem_range hhi hle hrest)]
      have hnext :=
        Input.advance_rest (Input.advance_rest (Input.advance_rest hrest))
      obtain ⟨body, hbody, htail⟩ := ih hnext hend
      rw [List.reverse_cons, List.append_assoc] at hbody
      exact ⟨body, hbody, htail⟩

/-! ## The whole bracket expression

The reader begins behind the opening bracket and leaves the closing one, so the
text that it reads is a bracket expression without its two ends. -/

theorem ofRead_eq_ok {start : Input} {negated : Bool} {b : Bracket}
    {body : Input.Rest start}
    {read : Except ParseError (List BracketItem × Input.Rest start)} :
    ofRead negated read = .ok (b, body) ↔
      b.negated = negated ∧ read = .ok (b.items, body) := by
  obtain ⟨bnegated, items, hne⟩ := b
  cases read with
  | error e => simp [ofRead]
  | ok result =>
      obtain ⟨items', body'⟩ := result
      by_cases hitems : items' = []
      · subst hitems
        simp [ofRead, ofItems?, Ne.symm hne]
      · simp only [ofRead, ofItems?, ne_eq, hitems, not_false_eq_true, dif_pos,
          Except.ok.injEq, Prod.mk.injEq, Bracket.mk.injEq]
        constructor
        · rintro ⟨⟨rfl, rfl⟩, rfl⟩
          exact ⟨rfl, rfl, rfl⟩
        · rintro ⟨rfl, rfl, rfl⟩
          exact ⟨⟨rfl, rfl⟩, rfl⟩

theorem readBody_sound {i : Input} {b : Bracket} {body : Input.Rest i}
    (h : readBody i = .ok (b, body)) :
    ∃ s, Grammar.IsBracket ('[' :: (s ++ [']'])) b ∧
      i.rest = s ++ body.input.rest := by
  obtain ⟨negated, items, hne⟩ := b
  rw [readBody] at h
  split at h
  · next hcaret =>
      obtain ⟨rfl, hread⟩ := ofRead_eq_ok.mp h
      obtain ⟨s, later, hs, hrest, rfl⟩ := readItems_sound hread
      refine ⟨'^' :: s, .negated hs, ?_⟩
      rw [Input.rest_of_peek hcaret, hrest]
      rfl
  · obtain ⟨rfl, hread⟩ := ofRead_eq_ok.mp h
    obtain ⟨s, later, hs, hrest, rfl⟩ := readItems_sound hread
    exact ⟨s, .plain hs, hrest⟩

theorem readBody_ends {i : Input} {b : Bracket} {body : Input.Rest i}
    (h : readBody i = .ok (b, body)) : EndsItems body.input.peek := by
  rw [readBody] at h
  split at h
  · exact readItems_ends (ofRead_eq_ok.mp h).2
  · exact readItems_ends (ofRead_eq_ok.mp h).2

/-- Items begin with a literal, so a caret before them is no item. -/
theorem head_of_items {s : List Char} {items : List BracketItem}
    (h : Grammar.Items s items) (hne : items ≠ []) :
    ∃ c rest, s = c :: rest ∧ isLiteral c = true := by
  cases h with
  | nil => exact absurd rfl hne
  | single hc _ _ => exact ⟨_, _, rfl, hc⟩
  | range hlo _ _ _ => exact ⟨_, _, rfl, hlo⟩

theorem endsItems_close (tail : List Char) : EndsItems (']' :: tail).head? := by
  intro c hc
  cases hc
  decide

theorem readBody_complete {s tail : List Char} {b : Bracket}
    (h : Grammar.IsBracket s b) {i : Input} (hi : '[' :: i.rest = s ++ tail) :
    ∃ body, readBody i = .ok (b, body) ∧ body.input.rest = ']' :: tail := by
  cases h with
  | @plain text items hne hitems =>
      have hrest : i.rest = text ++ ']' :: tail := by simpa using hi
      obtain ⟨c, text, rfl, hc⟩ := head_of_items hitems hne
      have hcaret : i.peek ≠ some '^' := by
        rw [Input.peek_of_rest hrest]
        rintro ⟨⟩
        exact absurd hc (by decide)
      obtain ⟨body, hbody, htail⟩ :=
        readItems_complete hitems hrest (endsItems_close tail)
      refine ⟨body, ?_, htail⟩
      rw [readBody, if_neg hcaret]
      exact ofRead_eq_ok.mpr ⟨rfl, hbody⟩
  | @negated text items hne hitems =>
      have hcaret : i.rest = '^' :: (text ++ ']' :: tail) := by simpa using hi
      obtain ⟨body, hbody, htail⟩ :=
        readItems_complete hitems (Input.advance_rest hcaret)
          (endsItems_close tail)
      refine ⟨body, ?_, htail⟩
      rw [readBody, if_pos (Input.peek_of_rest hcaret)]
      exact ofRead_eq_ok.mpr ⟨rfl, hbody⟩

end PatternSyntax.Bracket
