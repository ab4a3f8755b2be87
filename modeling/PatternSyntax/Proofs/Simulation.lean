import PatternSyntax.Parser.Pattern
import PatternSyntax.Proofs.BracketReading
import PatternSyntax.Proofs.FirstError
import PatternSyntax.Proofs.Lookahead
import PatternSyntax.Proofs.Soundness

/-!
# The parser is simulated by the flat recogniser

The recogniser has no stack. It can do without one because the parser's stack
decides nothing beyond its height: whichever production is at work, the next
character has one meaning in each mode, and on its return a production leaves
the recogniser in the one mode in which all callers go on. That mode is the one
behind a star. Behind a term that could still be starred the two modes differ on
the star alone, and a factor that was not starred has just seen that none comes.

So the statement about each production has three parts. If it fails, its error
is the first one that the recogniser finds. If it succeeds, the recogniser has
come to the same place without an error, and what comes next is in the follow
set. The last part is what makes two arms of the parser unreachable, the last
one of the loop over branches and the missing parenthesis before the end of the
pattern.
-/

namespace PatternSyntax.Scanner

/-- A reader's own error, or else what the recogniser finds behind it. -/
def resume {α : Type} (outcome : Except ParseError α)
    (next : α → Option ParseError) :
    Option ParseError :=
  match outcome with
  | .ok result => next result
  | .error e => some e

/-! ## Brackets -/

section Brackets

variable {limit : UInt32} {groups : Nat}

theorem firstError_dash {start : Nat} {lo : Char} {i : Input}
    (hstart : i.offset = start + lo.utf8Size + 1) :
    firstError limit (.dash lo) groups i =
      resume (Bracket.readUpper start lo i) fun read =>
        firstError limit .range groups read.2 := by
  rw [Bracket.readUpper]
  cases hp : i.peek with
  | none =>
      rw [firstError_end hp]
      dsimp only [resume, atEnd, Option.map, errorAt, Input.unexpected]
      rw [hp]
  | some hi =>
      dsimp only
      split
      · next hlit =>
          rw [BracketItem.range?]
          by_cases hle : lo ≤ hi
          · rw [if_pos hle]
            exact firstError_go hp (by rw [step, if_pos hlit, if_pos hle])
          · rw [if_neg hle,
              firstError_stop hp (by rw [step, if_pos hlit, if_neg hle])]
            dsimp only [resume, errorAt]
            have hoffset : i.offset - lo.utf8Size - 1 = start := by omega
            have hlength : lo.utf8Size + 1 + hi.utf8Size =
                i.offset + hi.utf8Size - start := by
              omega
            rw [hoffset, hlength]
      · next hlit =>
          rw [firstError_stop hp (by rw [step, if_neg hlit])]
          dsimp only [resume, errorAt, Input.unexpected]
          rw [hp]

/-- Where an item may begin. -/
def BeginsItem (mode : Mode) : Prop :=
  mode = .negated ∨ mode = .range

theorem firstError_item {mode : Mode} (hmode : BeginsItem mode) {i : Input}
    {lo : Char} (hp : i.peek = some lo) (hlo : isLiteral lo = true) :
    firstError limit mode groups i =
      resume (Bracket.readItem i lo) fun read =>
        firstError limit .range groups read.2 := by
  have hgo : step limit mode groups lo = .go (.single lo) groups := by
    rcases hmode with rfl | rfl
    · rw [step, if_pos hlo]
    · rw [step, if_pos hlo]
  rw [firstError_go hp hgo, Bracket.readItem]
  split
  · next hdash =>
      have hstep : step limit (.single lo) groups '-' =
          .go (.dash lo) groups := by
        rw [step, if_pos rfl]
      rw [firstError_go hdash hstep]
      refine firstError_dash ?_
      rw [Input.advance_offset hdash, Input.advance_offset hp]
      rfl
  · next hdash => exact firstError_single hdash

/-- The mode in which the loop over the items goes on. -/
def itemsMode (items : List BracketItem) : Mode :=
  if items.isEmpty then .negated else .range

theorem beginsItem_itemsMode (items : List BracketItem) :
    BeginsItem (itemsMode items) := by
  cases items with
  | nil => exact Or.inl rfl
  | cons item items => exact Or.inr rfl

theorem itemsMode_reverse (items : List BracketItem) :
    itemsMode items.reverse = itemsMode items := by
  rw [itemsMode, List.isEmpty_reverse, itemsMode]

theorem firstError_items {start i : Input}
    (le : i.rest.length ≤ start.rest.length) (earlier : List BracketItem) :
    firstError limit (itemsMode earlier) groups i =
      resume (Bracket.readItems start i le earlier) fun read =>
        firstError limit (itemsMode read.1) groups read.2.input := by
  rcases Bracket.endsItems_or_literal i.peek with hend | ⟨lo, hp, hlo⟩
  · rw [Bracket.readItems_stop hend]
    dsimp only [resume]
    rw [itemsMode_reverse]
  · rw [firstError_item (beginsItem_itemsMode earlier) hp hlo]
    cases hr : Bracket.readItem i lo with
    | error e => rw [Bracket.readItems_error hp hlo hr]; rfl
    | ok read =>
        obtain ⟨item, j⟩ := read
        have hlt := Bracket.readItem_lt hp hr
        rw [Bracket.readItems_item hp hlo hr]
        dsimp only [resume]
        exact firstError_items _ (item :: earlier)
termination_by i.rest.length

/-- Where the items end, nothing but a closing bracket is expected, and not even
that if there are none. -/
theorem firstError_negated {i : Input} (h : Bracket.EndsItems i.peek) :
    firstError limit .negated groups i = some (i.reject .emptyBracket) := by
  cases hp : i.peek with
  | none =>
      rw [firstError_end hp]
      rfl
  | some c =>
      have hc : ¬ isLiteral c = true := by
        rw [h c hp]
        exact Bool.false_ne_true
      have hs : step limit .negated groups c = .stop .emptyBracket := by
        rw [step, if_neg hc]
      exact firstError_stop hp hs

theorem firstError_range {i : Input} (h : Bracket.EndsItems i.peek)
    (hclose : i.peek ≠ some ']') :
    firstError limit .range groups i = some (i.unclosed ']') := by
  rw [Input.unclosed]
  cases hp : i.peek with
  | none =>
      rw [firstError_end hp]
      rfl
  | some c =>
      have hc : ¬ isLiteral c = true := by
        rw [h c hp]
        exact Bool.false_ne_true
      have hne : c ≠ ']' := fun he => hclose (he ▸ hp)
      have hs : step limit .range groups c =
          .stop (.unclosed ']' (some c)) := by
        rw [step, if_neg hc, if_neg hne]
      exact firstError_stop hp hs

theorem resume_ofRead {start i : Input} {le : i.rest.length ≤ start.rest.length}
    (negated : Bool) :
    (resume (Bracket.readItems start i le []) fun read =>
        firstError limit (itemsMode read.1) groups read.2.input) =
      resume (Bracket.ofRead negated (Bracket.readItems start i le []))
        fun read =>
        firstError limit .range groups read.2.input := by
  cases hr : Bracket.readItems start i le [] with
  | error e => rfl
  | ok read =>
      obtain ⟨items, body⟩ := read
      cases items with
      | nil =>
          have hend := Bracket.readItems_ends hr
          simp only [resume, Bracket.ofRead, Bracket.ofItems?]
          exact firstError_negated hend
      | cons item items => rfl

theorem firstError_body (i : Input) :
    firstError limit .opened groups i =
      resume (Bracket.readBody i) fun read =>
        firstError limit .range groups read.2.input := by
  rw [Bracket.readBody]
  split
  · next hcaret =>
      rw [firstError_go hcaret (by rw [step, if_pos rfl]), ← resume_ofRead]
      exact firstError_items _ []
  · next hcaret =>
      rw [firstError_opened hcaret, ← resume_ofRead]
      exact firstError_items _ []

end Brackets

end PatternSyntax.Scanner

namespace PatternSyntax.Parser

open Scanner

variable {τ σ : Type}

/-- What the recogniser finds from where a parse stands. -/
def errorFrom (limit : UInt32) (mode : Mode) (st : State) : Option ParseError :=
  firstError limit mode st.openGroups.toNat st.input

/-- The outcome of a production is what the recogniser finds, who would find
`found` from the production's start on. After a success it goes on in `mode`,
inside the same groups, and the next character is one that may `follow`. -/
def Tracks (limit : UInt32) (groups : UInt32) (found : Option ParseError)
    (mode : Mode) (follow : Option Char → Prop) {start : State}
    (outcome : Except ParseError (Read start (Tree σ))) : Prop :=
  match outcome with
  | .ok r =>
    found = errorFrom limit mode r.next ∧ follow r.next.peek ∧
    r.next.openGroups = groups
  | .error e => found = some e

/-- Nothing is asked of the next character. -/
def FollowsAny (_ : Option Char) : Prop :=
  True

/-! ## One step of the recogniser, seen from the parser -/

theorem errorFrom_advance {limit : UInt32} {mode mode' : Mode} {st : State}
    {c : Char} (hp : st.peek = some c)
    (hs : step limit mode st.openGroups.toNat c =
      .go mode' st.openGroups.toNat) :
    errorFrom limit mode st = errorFrom limit mode' st.advance :=
  firstError_go hp hs

theorem errorFrom_reject {limit : UInt32} {mode : Mode} {st : State} {c : Char}
    {cause : Cause} (hp : st.peek = some c)
    (hs : step limit mode st.openGroups.toNat c = .stop cause) :
    errorFrom limit mode st = some (errorAt st.input cause) :=
  firstError_stop hp hs

theorem errorFrom_unexpected {limit : UInt32} {st : State}
    (h : st.peek.any startsTerm = false) :
    errorFrom limit .term st = some st.input.unexpected := by
  rw [errorFrom, Input.unexpected]
  cases hp : st.input.peek with
  | none =>
      rw [firstError_end hp]
      rfl
  | some c =>
      have hc : startsTerm c = false := by
        rw [State.peek, hp] at h
        exact h
      rw [firstError_stop hp (by rw [step, beginTerm_stop hc])]
      rfl

theorem errorFrom_bar {limit : UInt32} {st : State} (hp : st.peek = some '|') :
    errorFrom limit .starred st = errorFrom limit .term st.advance :=
  errorFrom_advance hp (by rw [step, afterTerm, if_pos rfl])

theorem errorFrom_star {limit : UInt32} {st : State} (hp : st.peek = some '*') :
    errorFrom limit .ended st = errorFrom limit .starred st.advance :=
  errorFrom_advance hp (by rw [step, if_pos rfl])

theorem errorFrom_enter {limit : UInt32} {st : State} (hp : st.peek = some '(')
    (hroom : st.openGroups < limit) :
    errorFrom limit .term st = errorFrom limit .term st.enter := by
  have hlt := UInt32.lt_iff_toNat_lt.mp hroom
  rw [errorFrom, errorFrom, enter_openGroups_toNat hroom]
  refine firstError_go hp ?_
  rw [step, beginTerm, if_neg (by decide), if_neg (by decide), if_pos rfl,
    if_pos hlt]

theorem errorFrom_tooDeep {limit : UInt32} {st : State}
    (hp : st.peek = some '(') (hroom : ¬ st.openGroups < limit) :
    errorFrom limit .term st = some (st.input.reject (.tooDeep limit)) := by
  have hlt : ¬ st.openGroups.toNat < limit.toNat := fun h =>
    hroom (UInt32.lt_iff_toNat_lt.mpr h)
  have hs : step limit .term st.openGroups.toNat '(' =
      .stop (.tooDeep limit) := by
    rw [step, beginTerm, if_neg (by decide), if_neg (by decide), if_pos rfl,
      if_neg hlt]
  exact errorFrom_reject hp hs

theorem errorFrom_literal {limit : UInt32} {st : State} {c : Char}
    (hp : st.peek = some c) (hc : isLiteral c = true) :
    errorFrom limit .term st = errorFrom limit .ended st.advance :=
  errorFrom_advance hp (by rw [step, beginTerm, if_pos hc])

theorem errorFrom_opened {limit : UInt32} {st : State}
    (hp : st.peek = some '[') :
    errorFrom limit .term st = errorFrom limit .opened st.advance :=
  errorFrom_advance hp (by rw [step, beginTerm, if_neg (by decide), if_pos rfl])

/-- Behind a term, a character that neither goes on nor ends anything is
rejected. -/
theorem errorFrom_afterTerm {limit : UInt32} {st : State} {c : Char}
    (hp : st.peek = some c) (hc : startsTerm c = false) (hbar : c ≠ '|')
    (hclose : ¬ (c = ')' ∧ 0 < st.openGroups.toNat)) :
    errorFrom limit .starred st = some st.input.unexpected := by
  rw [errorFrom_reject hp
    (by rw [step, afterTerm, if_neg hbar, if_neg hclose, beginTerm_stop hc]),
      Input.unexpected,
    show st.input.peek = some c from hp]
  rfl

/-! ## The productions -/

theorem literal_tracks {p : Parser τ σ} {st : State} {c : Char}
    {h : st.peek = some c} (made : τ) (hc : isLiteral c = true) :
    Tracks p.nestLimit st.openGroups (errorFrom p.nestLimit .term st) .ended
      FollowsAny (p.literal st c h made).1 :=
  ⟨errorFrom_literal h hc, trivial, rfl⟩

theorem bracket_tracks {p : Parser τ σ} {st : State} {h : st.peek = some '['}
    (made : τ) :
    Tracks p.nestLimit st.openGroups (errorFrom p.nestLimit .term st) .ended
      FollowsAny (p.bracket st h made).1 := by
  rw [errorFrom_opened h, errorFrom, State.advance_input, firstError_body,
    bracket]
  cases hb : Bracket.readBody st.input.advance with
  | error e => rfl
  | ok read =>
      obtain ⟨b, body⟩ := read
      dsimp only [resume]
      split
      · next hclose =>
          refine ⟨firstError_go hclose ?_, trivial, rfl⟩
          rw [step, if_neg (by decide), if_pos rfl]
          rfl
      · next hclose => exact firstError_range (Bracket.readBody_ends hb) hclose

/-- The group's content has been read, one group deeper than `st`. -/
theorem closeGroup_tracks {limit : UInt32} {st start : State}
    {content : Read start (Tree σ)} (hroom : st.openGroups < limit)
    (hopen : content.next.openGroups = st.enter.openGroups)
    (hfollow : FollowsRegex content.next.peek) :
    Tracks limit st.openGroups (errorFrom limit .starred content.next) .ended
      FollowsAny (closeGroup content) := by
  have hdeeper : content.next.openGroups.toNat = st.openGroups.toNat + 1 := by
    rw [hopen]
    exact enter_openGroups_toNat hroom
  rw [closeGroup]
  split
  · next hclose =>
      refine ⟨?_, trivial, leave_openGroups hopen⟩
      rw [errorFrom, errorFrom, hdeeper]
      refine firstError_go hclose ?_
      rw [step, afterTerm, if_neg (by decide), if_pos ⟨rfl, Nat.succ_pos _⟩,
        show content.next.leave.advance.openGroups =
          st.openGroups from leave_openGroups hopen]
      rfl
  · next hclose =>
      cases hp : content.next.input.peek with
      | none =>
          rw [Tracks, errorFrom, firstError_end hp, hdeeper, atEnd,
            if_neg (Nat.succ_ne_zero _), State.leave_input, Input.unclosed, hp]
          rfl
      | some c =>
          have hc := hfollow c hp
          exact absurd (hc ▸ hp) hclose

mutual

theorem regex_tracks (p : Parser τ σ) (st : State) (made : τ) :
    Tracks p.nestLimit st.openGroups (errorFrom p.nestLimit .term st) .starred
      FollowsRegex (p.regex st made).1 := by
  rw [regex]
  split
  · have hb := branch_tracks p st made
    split
    · next first made₁ hbranch =>
        have progress := first.progress
        rw [hbranch] at hb
        obtain ⟨hfound, hfollow, hopen⟩ := hb
        rw [hfound, ← hopen]
        exact branches_tracks p first.next made₁ hfollow
    · next e made₁ hbranch =>
        rw [hbranch] at hb
        exact hb
  · next hstart => exact errorFrom_unexpected (Bool.not_eq_true _ ▸ hstart)
termination_by (st.unread, 3)

theorem branches_tracks (p : Parser τ σ) (st : State) (made : τ)
    (hfollow : FollowsBranch st.peek) {start : State}
    {progress : st.unread < start.unread} {earlier : List (Tree σ)}
    {last : Tree σ} :
    Tracks p.nestLimit st.openGroups (errorFrom p.nestLimit .starred st)
      .starred FollowsRegex
      (p.branches start st progress earlier last made).1 := by
  rw [branches]
  split
  · next hp => exact ⟨rfl, by rw [hp]; exact followsRegex_none, rfl⟩
  · next c hp =>
      split
      · next hbar =>
          subst hbar
          have bar := st.advance_lt hp
          have hb := branch_tracks p st.advance made
          rw [errorFrom_bar hp]
          dsimp only
          split
          · next b made₁ hbranch =>
              have branch := b.progress
              rw [hbranch] at hb
              obtain ⟨hfound, hfollow', hopen⟩ := hb
              rw [hfound,
                show st.openGroups = b.next.openGroups from hopen.symm]
              exact branches_tracks p b.next made₁ hfollow'
          · next e made₁ hbranch =>
              rw [hbranch] at hb
              exact hb
      · next hbar =>
          split
          · next hclose =>
              exact ⟨rfl, by rw [hp, hclose]; exact followsRegex_close, rfl⟩
          · next hclose =>
              -- The branch before has ended, so what comes next is a bar or a
              -- parenthesis.
              rcases hfollow c hp with h | h
              · exact absurd h hclose
              · exact absurd h hbar
termination_by (st.unread, 0)

theorem branch_tracks (p : Parser τ σ) (st : State) (made : τ) :
    Tracks p.nestLimit st.openGroups (errorFrom p.nestLimit .term st) .starred
      FollowsBranch (p.branch st made).1 := by
  rw [branch]
  split
  · have hf := factor_tracks p st made
    split
    · next first made₁ hfactor =>
        have progress := first.progress
        rw [hfactor] at hf
        obtain ⟨hfound, -, hopen⟩ := hf
        rw [hfound, ← hopen]
        exact factors_tracks p first.next made₁
    · next e made₁ hfactor =>
        rw [hfactor] at hf
        exact hf
  · next hstart => exact errorFrom_unexpected (Bool.not_eq_true _ ▸ hstart)
termination_by (st.unread, 2)

theorem factors_tracks (p : Parser τ σ) (st : State) (made : τ) {start : State}
    {progress : st.unread < start.unread} {earlier : List (Tree σ)}
    {last : Tree σ} :
    Tracks p.nestLimit st.openGroups (errorFrom p.nestLimit .starred st)
      .starred FollowsBranch
      (p.factors start st progress earlier last made).1 := by
  rw [factors]
  split
  · next hp => exact ⟨rfl, by rw [hp]; exact followsRegex_none.branch, rfl⟩
  · next c hp =>
      split
      · next hterm =>
          have hf := factor_tracks p st made
          rw [errorFrom, firstError_starred hp hterm]
          split
          · next f made₁ hfactor =>
              have factor := f.progress
              rw [hfactor] at hf
              obtain ⟨hfound, -, hopen⟩ := hf
              rw [← errorFrom, hfound, ← hopen]
              exact factors_tracks p f.next made₁
          · next e made₁ hfactor =>
              rw [hfactor] at hf
              exact hf
      · next hterm =>
          split
          · next hends =>
              refine ⟨rfl, ?_, rfl⟩
              rw [hp]
              intro d hd
              cases hd
              exact hends
          · next hends =>
              obtain ⟨hclose, hbar⟩ := not_or.mp hends
              exact errorFrom_afterTerm hp (Bool.not_eq_true _ ▸ hterm) hbar
                fun h => hclose h.1
termination_by (st.unread, 2)

theorem factor_tracks (p : Parser τ σ) (st : State) (made : τ) :
    Tracks p.nestLimit st.openGroups (errorFrom p.nestLimit .term st) .starred
      FollowsAny (p.factor st made).1 := by
  have hb := base_tracks p st made
  rw [factor]
  split
  · next b made₁ hbase =>
      rw [hbase] at hb
      obtain ⟨hfound, -, hopen⟩ := hb
      rw [hfound]
      split
      · next hp =>
          refine ⟨firstError_ended ?_, trivial, hopen⟩
          rw [show b.next.input.peek = none from hp]
          exact fun h => by cases h
      · next c hp =>
          split
          · next hstar =>
              subst hstar
              exact ⟨errorFrom_star hp, trivial, hopen⟩
          · next hstar =>
              have hended : errorFrom p.nestLimit .ended b.next =
                  errorFrom p.nestLimit .starred b.next :=
                firstError_ended fun h =>
                  hstar (Option.some.inj (hp.symm.trans h))
              rw [hended]
              split
              · exact ⟨rfl, trivial, hopen⟩
              · next hends =>
                  obtain ⟨hterm, hrest⟩ := not_or.mp hends
                  obtain ⟨hclose, hbar⟩ := not_or.mp hrest
                  exact errorFrom_afterTerm hp (Bool.not_eq_true _ ▸ hterm) hbar
                    fun h => hclose h.1
  · next e made₁ hbase =>
      rw [hbase] at hb
      exact hb
termination_by (st.unread, 1)

theorem base_tracks (p : Parser τ σ) (st : State) (made : τ) :
    Tracks p.nestLimit st.openGroups (errorFrom p.nestLimit .term st) .ended
      FollowsAny (p.base st made).1 := by
  rw [base]
  split
  · next hp => exact errorFrom_unexpected (by rw [hp]; rfl)
  · next c hp =>
      split
      · next hgroup =>
          subst hgroup
          split
          · next hroom =>
              have enter := st.enter_lt hp
              have hx := regex_tracks p st.enter made
              rw [errorFrom_enter hp hroom]
              dsimp only
              split
              · next content made₁ hregex =>
                  rw [hregex] at hx
                  obtain ⟨hfound, hfollow, hopen⟩ := hx
                  rw [hfound]
                  have hclosed := closeGroup_tracks hroom hopen hfollow
                  split
                  · next group hgroup =>
                      rw [hgroup] at hclosed
                      exact hclosed
                  · next e hgroup =>
                      rw [hgroup] at hclosed
                      exact hclosed
              · next e made₁ hregex =>
                  rw [hregex] at hx
                  exact hx
          · next hroom => exact errorFrom_tooDeep hp hroom
      · next hgroup =>
          split
          · exact bracket_tracks made
          · next hbracket =>
              split
              · next hlit => exact literal_tracks made hlit
              · next hlit =>
                  refine errorFrom_unexpected ?_
                  rw [hp]
                  simp [startsTerm, hlit, hgroup, hbracket]
termination_by (st.unread, 0)

end

end PatternSyntax.Parser
