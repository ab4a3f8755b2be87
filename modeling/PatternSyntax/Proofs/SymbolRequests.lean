import PatternSyntax.Proofs.BracketPosition
import PatternSyntax.Proofs.ClassText
import PatternSyntax.Proofs.CorrectPrefix
import PatternSyntax.Proofs.Exactness
import PatternSyntax.Proofs.SourceOrder

/-!
# What a parser asks its factory for

A parser asks for one symbol for each atom, in the order in which the atoms
stand in the pattern. On a pattern that it accepts this is what `makeTree` says:
the requests are the leaves of the tree. A pattern that it rejects has no tree,
so there the requests are read off the text in front of the error.

The text in front of an error divides into complete atoms and, if the error is
inside a bracket expression, the part behind the last opening bracket. That part
asks for a symbol in one case. A bracket expression whose closing bracket is
missing was complete before that was noticed, and its symbol had been asked for.

The two repetitions of the grammar join their operands from the last one
backwards. Their operands have been read by then, and joining asks for nothing,
so the loops need no invariant here beyond what they have read so far.
-/

namespace PatternSyntax

/-! ## Requests one after the other -/

namespace SymbolFactory

variable {τ σ : Type}

/-- Asks for the symbols of a list of atoms. -/
def makeAll (f : SymbolFactory τ σ) : List Atom → τ → List σ × τ
  | [], made => ([], made)
  | a :: rest, made =>
    let (symbol, made) := f.make a made
    let (symbols, made) := f.makeAll rest made
    (symbol :: symbols, made)

/-- The factory with a log of its requests and replies. -/
def logged (f : SymbolFactory τ σ) : SymbolFactory (τ × List (Atom × σ)) σ where
  make atom made :=
    let (symbol, next) := f.make atom made.1
    (symbol, (next, made.2 ++ [(atom, symbol)]))

theorem makeAll_append (f : SymbolFactory τ σ) (atoms more : List Atom)
    (made : τ) :
    f.makeAll (atoms ++ more) made =
      ((f.makeAll atoms made).1 ++ (f.makeAll more (f.makeAll atoms made).2).1,
        (f.makeAll more (f.makeAll atoms made).2).2) := by
  induction atoms generalizing made with
  | nil => rfl
  | cons a rest ih => simp only [List.cons_append, makeAll, ih]

theorem makeAll_length (f : SymbolFactory τ σ) (atoms : List Atom) (made : τ) :
    (f.makeAll atoms made).1.length = atoms.length := by
  induction atoms generalizing made with
  | nil => rfl
  | cons a rest ih => simp only [makeAll, List.length_cons, ih]

theorem makeAll_logged (f : SymbolFactory τ σ) (atoms : List Atom) (made : τ)
    (log : List (Atom × σ)) :
    f.logged.makeAll atoms (made, log) =
      ((f.makeAll atoms made).1,
        ((f.makeAll atoms made).2,
          log ++ atoms.zip (f.makeAll atoms made).1)) := by
  induction atoms generalizing made log with
  | nil => simp only [makeAll, List.zip_nil_left, List.append_nil]
  | cons a rest ih =>
      have hstep : f.logged.make a (made, log) =
          ((f.make a made).1,
            ((f.make a made).2, log ++ [(a, (f.make a made).1)])) := rfl
      simp only [makeAll, hstep, ih, List.zip_cons_cons, List.append_assoc,
        List.singleton_append]

/-- The symbols of a tree are made by asking for its leaves. -/
theorem makeAll_leaves (f : SymbolFactory τ σ) (t : Tree Atom) (made : τ) :
    f.makeAll t.leaves made =
      ((f.makeTree t made).1.leaves, (f.makeTree t made).2) := by
  induction t generalizing made with
  | emptyWord => rfl
  | emptySet => rfl
  | literal a => rfl
  | concat l r hl hr =>
      simp only [Tree.leaves, makeAll_append, hl, hr, makeTree]
  | alt l r hl hr => simp only [Tree.leaves, makeAll_append, hl, hr, makeTree]
  | star x hx => simp only [Tree.leaves, hx, makeTree]

/-- Keeping a log changes neither the symbols nor the factory's own state. -/
theorem makeTree_logged (f : SymbolFactory τ σ) (t : Tree Atom)
    (made : τ × List (Atom × σ)) :
    (f.logged.makeTree t made).1 = (f.makeTree t made.1).1 ∧
      (f.logged.makeTree t made).2.1 = (f.makeTree t made.1).2 := by
  induction t generalizing made with
  | emptyWord => exact ⟨rfl, rfl⟩
  | emptySet => exact ⟨rfl, rfl⟩
  | literal a => exact ⟨rfl, rfl⟩
  | concat l r hl hr => simp only [makeTree, hl, hr, and_self]
  | alt l r hl hr => simp only [makeTree, hl, hr, and_self]
  | star x hx => simp only [makeTree, hx, and_self]

end SymbolFactory

/-! ## Which requests belong to a rejected text -/

namespace Grammar

/-- What is asked for because of the bracket expression left open, if one is. -/
inductive Pending : Cause → List Char → List Atom → Prop where
  | unclosed {found : Option Char} {opened : List Char} {b : Bracket} :
      IsBracket (opened ++ [']']) b →
      Pending (.unclosed ']' found) opened [.bracket b]
  | nothing {cause : Cause} {opened : List Char} :
      (∀ found, cause ≠ .unclosed ']' found) → Pending cause opened []

/-- The requests made before an error, read off the text in front of it: one for
each complete atom, and what is pending. -/
def RequestedBefore (cause : Cause) (s : List Char) (requests : List Atom) :
    Prop :=
  ∃ closed opened atoms pending, s = closed ++ opened ∧ Atoms closed atoms ∧
    Unfinished opened ∧ Pending cause opened pending ∧
    requests = atoms ++ pending

variable {cause : Cause} {s opened : List Char} {requests requests' : List Atom}

theorem Pending.unique (h : Pending cause opened requests)
    (h' : Pending cause opened requests') : requests = requests' := by
  cases h with
  | unclosed hb =>
      cases h' with
      | unclosed hb' =>
          have hsame : opened ++ [']'] ++ [] = opened ++ [']'] ++ [] := rfl
          rw [(bracket_unique hb hb' hsame).1]
      | nothing hcause => exact absurd rfl (hcause _)
  | nothing hcause =>
      cases h' with
      | unclosed _ => exact absurd rfl (hcause _)
      | nothing _ => rfl

theorem RequestedBefore.unique (h : RequestedBefore cause s requests)
    (h' : RequestedBefore cause s requests') : requests = requests' := by
  obtain ⟨closed, opened, atoms, pending, rfl, hatoms, hopened, hpending,
    rfl⟩ := h
  obtain ⟨closed', opened', atoms', pending', hs, hatoms', hopened', hpending',
    rfl⟩ := h'
  obtain ⟨rfl, rfl⟩ := hatoms.division_unique hatoms' hopened hopened' hs
  rw [hpending.unique hpending']

theorem RequestedBefore.after {s₀ : List Char} {atoms₀ : List Atom}
    (h₀ : Atoms s₀ atoms₀) (h : RequestedBefore cause s requests) :
    RequestedBefore cause (s₀ ++ s) (atoms₀ ++ requests) := by
  obtain ⟨closed, opened, atoms, pending, rfl, hatoms, hopened, hpending,
    rfl⟩ := h
  exact ⟨s₀ ++ closed, opened, atoms₀ ++ atoms, pending,
    (List.append_assoc ..).symm,
    h₀.append hatoms, hopened, hpending, (List.append_assoc ..).symm⟩

/-- Nothing is asked for by an unfinished bracket expression that fails in
itself. -/
theorem requestedBefore_unfinished (hopened : Unfinished opened)
    (hcause : ∀ found, cause ≠ .unclosed ']' found) :
    RequestedBefore cause opened [] :=
  ⟨[], opened, [], [], rfl, .nil, hopened, .nothing hcause, rfl⟩

/-- Only well-formed bracket expressions are asked for. -/
theorem RequestedBefore.isBracket (h : RequestedBefore cause s requests)
    {b : Bracket} (hb : .bracket b ∈ requests) : ∃ text, IsBracket text b := by
  obtain ⟨closed, opened, atoms, pending, -, hatoms, -, hpending, rfl⟩ := h
  rcases List.mem_append.mp hb with hb | hb
  · exact hatoms.isBracket b hb
  · cases hpending with
    | unclosed hbracket =>
        cases List.mem_singleton.mp hb
        exact ⟨_, hbracket⟩
    | nothing _ => cases hb

theorem IsBracket.bounds {b : Bracket} (h : IsBracket s b) :
    ∀ item ∈ b.items, item.lo ≤ item.hi ∧ isLiteral item.lo = true ∧
      isLiteral item.hi = true := by
  cases h with
  | plain h => exact items_bounds h
  | negated h => exact items_bounds h

/-- The marks have no leaves. The leaves of every other pattern are its
atoms. -/
theorem leaves_of_pattern {n : Nat} {t : Tree Atom} (h : Pattern n s t) :
    if s = [emptyWordMark] ∨ s = [emptySetMark] then t.leaves = []
    else Atoms s t.leaves := by
  cases h with
  | emptyWord =>
      rw [if_pos (.inl rfl)]
      rfl
  | emptySet =>
      rw [if_pos (.inr rfl)]
      rfl
  | regex hword hset hs =>
      rw [if_neg (not_or.mpr ⟨hword, hset⟩)]
      exact atoms_of_regex hs

theorem isBracket_of_leaf {n : Nat} {t : Tree Atom} (h : Pattern n s t)
    {b : Bracket} (hb : .bracket b ∈ t.leaves) : ∃ text, IsBracket text b := by
  cases h with
  | emptyWord => cases hb
  | emptySet => cases hb
  | regex _ _ hs => exact (atoms_of_regex hs).isBracket b hb

end Grammar

/-! ## The productions -/

namespace Parser

open Grammar

variable {τ σ : Type} {f : SymbolFactory τ σ} {i j : Input}
  {made made₁ made' : τ} {e : ParseError}

/-- A text was read, and its atoms were asked for. -/
def Advances (f : SymbolFactory τ σ) (i : Input) (made : τ) (j : Input)
    (made' : τ) : Prop :=
  ∃ s atoms, Atoms s atoms ∧ i.Leads s j ∧ (f.makeAll atoms made).2 = made'

/-- An error arose behind a text, and what belongs to it was asked for. -/
def Stops (f : SymbolFactory τ σ) (i : Input) (made : τ) (e : ParseError)
    (made' : τ) : Prop :=
  ∃ s j requests, i.Leads s j ∧ e.position = j.position ∧
    RequestedBefore e.cause s requests ∧
    (f.makeAll requests made).2 = made'

/-- What a production asks for that began at `i`. -/
def Asks (f : SymbolFactory τ σ) (i : Input) (made : τ) {start : State} :
    Outcome τ (Read start (Tree σ)) → Prop
  | (.ok r, made') => Advances f i made r.next.input made'
  | (.error e, made') => Stops f i made e made'

theorem Advances.trans {k : Input} (h : Advances f i made j made₁)
    (h' : Advances f j made₁ k made') : Advances f i made k made' := by
  obtain ⟨s, atoms, hs, hlead, rfl⟩ := h
  obtain ⟨s', atoms', hs', hlead', rfl⟩ := h'
  refine ⟨s ++ s', atoms ++ atoms', hs.append hs', hlead.trans hlead', ?_⟩
  rw [SymbolFactory.makeAll_append]

theorem advances_operator {c : Char} (hp : i.peek = some c) (hc : c ∈ operators)
    (made : τ) :
    Advances f i made i.advance made :=
  ⟨[c], [], atoms_operator hc, Input.leads_advance hp, rfl⟩

theorem Stops.after (h : Advances f i made j made₁)
    (h' : Stops f j made₁ e made') :
    Stops f i made e made' := by
  obtain ⟨s, atoms, hs, hlead, rfl⟩ := h
  obtain ⟨s', k, requests, hlead', hposition, hrequests, rfl⟩ := h'
  refine ⟨s ++ s', k, atoms ++ requests, hlead.trans hlead', hposition,
    hrequests.after hs, ?_⟩
  rw [SymbolFactory.makeAll_append]

/-- Nothing was read, and the error is not about a closing bracket. -/
theorem stops_here (i : Input) (cause : Cause)
    (hcause : ∀ found, cause ≠ .unclosed ']' found) (made : τ) :
    Stops f i made (i.reject cause) made :=
  ⟨[], i, [], .refl i, rfl, requestedBefore_unfinished (.inl rfl) hcause, rfl⟩

theorem stops_unexpected (i : Input) (made : τ) :
    Stops f i made i.unexpected made :=
  stops_here i (.unexpected i.peek) (fun _ h => nomatch h) made

theorem Asks.after {start : State} {outcome : Outcome τ (Read start (Tree σ))}
    (h : Advances f i made j made₁) (h' : Asks f j made₁ outcome) :
    Asks f i made outcome := by
  obtain ⟨result, made'⟩ := outcome
  cases result with
  | ok r => exact Advances.trans h h'
  | error e => exact Stops.after h h'

theorem literal_asks {p : Parser τ σ} {st : State} {c : Char}
    {h : st.peek = some c} (hc : isLiteral c = true) (made : τ) :
    Asks p.factory st.input made (p.literal st c h made) :=
  ⟨[c], [.char c], .char hc .nil, Input.leads_advance h, rfl⟩

/-- The request stands between the body and the closing bracket. So it has been
made if the bracket is missing, and has not if the body is rejected. -/
theorem bracket_asks {p : Parser τ σ} {st : State} {h : st.peek = some '['}
    (made : τ) :
    Asks p.factory st.input made (p.bracket st h made) := by
  have hopen := Input.leads_advance h
  rw [bracket]
  split
  · next b body hbody =>
      obtain ⟨s, hs, hclose⟩ := Bracket.readBody_inside hbody
      obtain ⟨s', hb, hrest⟩ := Bracket.readBody_sound hbody
      have hsame : s' = s := List.append_cancel_right (hrest.symm.trans hs.1)
      subst hsame
      dsimp only
      split
      · next hp =>
          refine ⟨'[' :: (s' ++ [']']), _, atoms_bracket hb, ?_, rfl⟩
          exact hopen.trans (hs.trans (Input.leads_advance hp))
      · refine ⟨'[' :: s', body.input, [.bracket b], hopen.trans hs, rfl,
          ?_, rfl⟩
        refine ⟨[], '[' :: s', [], [.bracket b], rfl, .nil, .inr ⟨rfl, ?_⟩,
          .unclosed hb, rfl⟩
        exact List.not_mem_cons_of_ne_of_not_mem (by decide) hclose
  · next e hbody =>
      obtain ⟨j, ⟨s, hs, hclose⟩, hposition, hcause⟩ :=
        Bracket.readBody_error hbody
      refine ⟨'[' :: s, j, [], hopen.trans hs, hposition, ?_, rfl⟩
      refine requestedBefore_unfinished (.inr ⟨rfl, ?_⟩) hcause
      exact List.not_mem_cons_of_ne_of_not_mem (by decide) hclose

theorem closeGroup_asks {start : State} {content : Read start (Tree σ)}
    (made : τ) :
    Asks f content.next.input made (closeGroup content, made) := by
  rw [closeGroup]
  split
  · next hclose => exact advances_operator hclose (by decide) made
  · refine stops_here content.next.input (.unclosed ')' content.next.input.peek)
      (fun found h => ?_) made
    cases h

mutual

theorem regex_asks (p : Parser τ σ) (st : State) (made : τ) :
    Asks p.factory st.input made (p.regex st made) := by
  rw [regex]
  split
  · have hb := branch_asks p st made
    split
    · next first made₁ hbranch =>
        have progress := first.progress
        rw [hbranch] at hb
        exact Asks.after hb (branches_asks p first.next made₁)
    · next e made₁ hbranch =>
        rw [hbranch] at hb
        exact hb
  · exact stops_unexpected st.input made
termination_by (st.unread, 3)

theorem branches_asks (p : Parser τ σ) (st : State) (made : τ) {start : State}
    {progress : st.unread < start.unread} {earlier : List (Tree σ)}
    {last : Tree σ} :
    Asks p.factory st.input made
      (p.branches start st progress earlier last made) := by
  rw [branches]
  split
  · exact ⟨[], [], .nil, .refl _, rfl⟩
  · next c hp =>
      split
      · next hbar =>
          subst hbar
          have bar := st.advance_lt hp
          have hoperator :=
            advances_operator (f := p.factory) hp (by decide) made
          have hb := branch_asks p st.advance made
          dsimp only
          split
          · next b made₁ hbranch =>
              have branch := b.progress
              rw [hbranch] at hb
              exact Asks.after (hoperator.trans hb)
                (branches_asks p b.next made₁)
          · next e made₁ hbranch =>
              rw [hbranch] at hb
              exact Stops.after hoperator hb
      · split
        · exact ⟨[], [], .nil, .refl _, rfl⟩
        · exact stops_unexpected st.input made
termination_by (st.unread, 0)

theorem branch_asks (p : Parser τ σ) (st : State) (made : τ) :
    Asks p.factory st.input made (p.branch st made) := by
  rw [branch]
  split
  · have hf := factor_asks p st made
    split
    · next first made₁ hfactor =>
        have progress := first.progress
        rw [hfactor] at hf
        exact Asks.after hf (factors_asks p first.next made₁)
    · next e made₁ hfactor =>
        rw [hfactor] at hf
        exact hf
  · exact stops_unexpected st.input made
termination_by (st.unread, 2)

theorem factors_asks (p : Parser τ σ) (st : State) (made : τ) {start : State}
    {progress : st.unread < start.unread} {earlier : List (Tree σ)}
    {last : Tree σ} :
    Asks p.factory st.input made
      (p.factors start st progress earlier last made) := by
  rw [factors]
  split
  · exact ⟨[], [], .nil, .refl _, rfl⟩
  · split
    · have hf := factor_asks p st made
      split
      · next operand made₁ hfactor =>
          have factor := operand.progress
          rw [hfactor] at hf
          exact Asks.after hf (factors_asks p operand.next made₁)
      · next e made₁ hfactor =>
          rw [hfactor] at hf
          exact hf
    · split
      · exact ⟨[], [], .nil, .refl _, rfl⟩
      · exact stops_unexpected st.input made
termination_by (st.unread, 2)

theorem factor_asks (p : Parser τ σ) (st : State) (made : τ) :
    Asks p.factory st.input made (p.factor st made) := by
  have hb := base_asks p st made
  rw [factor]
  split
  · next b made₁ hbase =>
      rw [hbase] at hb
      split
      · exact hb
      · next c hp =>
          split
          · next hstar =>
              subst hstar
              exact Advances.trans hb (advances_operator hp (by decide) made₁)
          · split
            · exact hb
            · exact Stops.after hb (stops_unexpected b.next.input made₁)
  · next e made₁ hbase =>
      rw [hbase] at hb
      exact hb
termination_by (st.unread, 1)

theorem base_asks (p : Parser τ σ) (st : State) (made : τ) :
    Asks p.factory st.input made (p.base st made) := by
  rw [base]
  split
  · exact stops_unexpected st.input made
  · next c hp =>
      split
      · next hgroup =>
          subst hgroup
          split
          · have enter := st.enter_lt hp
            have hoperator :=
              advances_operator (f := p.factory) hp (by decide) made
            have hx := regex_asks p st.enter made
            dsimp only
            split
            · next content made₁ hregex =>
                rw [hregex] at hx
                have hclosed :=
                  Asks.after (hoperator.trans hx) (closeGroup_asks made₁)
                split
                · next group hgroup =>
                    rw [hgroup] at hclosed
                    exact hclosed
                · next e hgroup =>
                    rw [hgroup] at hclosed
                    exact hclosed
            · next e made₁ hregex =>
                rw [hregex] at hx
                exact Stops.after hoperator hx
          · exact stops_here st.input (.tooDeep p.nestLimit)
              (fun _ h => nomatch h) made
      · split
        · exact bracket_asks made
        · split
          · next hlit => exact literal_asks hlit made
          · exact stops_unexpected st.input made
termination_by (st.unread, 0)

end

/-! ## A whole pattern -/

/-- The parser with a log in its factory. -/
def logging (p : Parser τ σ) : Parser (τ × List (Atom × σ)) σ :=
  ⟨p.factory.logged, p.nestLimit⟩

theorem parseList_stops {p : Parser τ σ} {pattern : List Char}
    (h : p.parseList pattern made = (.error e, made')) :
    Stops p.factory (Input.ofList pattern) made e made' := by
  have hr := regex_asks p (State.ofList pattern) made
  rw [parseList] at h
  split at h
  · cases h
  · split at h
    · cases h
    · split at h
      · next whole made₁ hregex =>
          rw [hregex] at hr
          split at h
          · cases h
          · cases h
            exact Stops.after hr (stops_unexpected whole.next.input _)
      · next e₁ made₁ hregex =>
          cases h
          rw [hregex] at hr
          exact hr

/-- The text in front of an error determines the requests that were made. -/
theorem requests_of_error {p : Parser τ σ} {pattern : String}
    (h : p.parse pattern made = (.error e, made')) :
    ∃ requests,
      RequestedBefore e.cause (pattern.toList.take (e.position - 1)) requests ∧
      (p.factory.makeAll requests made).2 = made' := by
  obtain ⟨s, j, requests, ⟨hrest, hconsumed⟩, hposition, hrequests, hmade⟩ :=
    parseList_stops h
  have hlength : e.position - 1 = s.length := by
    rw [hposition, Input.position, hconsumed]
    exact Nat.zero_add _
  have hpattern : pattern.toList = s ++ j.rest := hrest
  rw [hlength, hpattern, List.take_left]
  exact ⟨requests, hrequests, hmade⟩

section Logging

variable {p : Parser τ σ} {pattern : String} {log : List (Atom × σ)}

theorem logging_ok {value : Tree σ}
    (h : p.logging.parse pattern (made, []) = (.ok value, (made', log))) :
    ∃ t, Pattern p.nestLimit.toNat pattern.toList t ∧
      p.factory.makeTree t made = (value, made') ∧
      log = t.leaves.zip value.leaves := by
  obtain ⟨t, ht, hmake⟩ := parseList_sound h
  obtain ⟨hvalue, hmade⟩ := p.factory.makeTree_logged t (made, [])
  have hlog := p.factory.logged.makeAll_leaves t (made, [])
  have hlogged : p.factory.logged.makeTree t (made, []) =
      (value, (made', log)) := hmake
  rw [hlogged] at hvalue hmade hlog
  have htree : p.factory.makeTree t made = (value, made') :=
    Prod.ext hvalue.symm hmade.symm
  rw [SymbolFactory.makeAll_logged, SymbolFactory.makeAll_leaves, htree] at hlog
  exact ⟨t, ht, htree, (congrArg (fun made => made.2.2) hlog).symm⟩

theorem logging_error
    (h : p.logging.parse pattern (made, []) = (.error e, (made', log))) :
    ∃ requests,
      RequestedBefore e.cause (pattern.toList.take (e.position - 1)) requests ∧
      (p.factory.makeAll requests made).2 = made' ∧
      log = requests.zip (p.factory.makeAll requests made).1 := by
  obtain ⟨requests, hrequests, hmade⟩ := requests_of_error h
  rw [show p.logging.factory = p.factory.logged from rfl,
    SymbolFactory.makeAll_logged] at hmade
  cases hmade
  exact ⟨requests, hrequests, rfl, rfl⟩

/-- The log is not noticed. -/
theorem parse_logging (p : Parser τ σ) (pattern : String) (made : τ) :
    p.parse pattern made =
      ((p.logging.parse pattern (made, [])).1,
        (p.logging.parse pattern (made, [])).2.1) := by
  rcases hlogged : p.logging.parse pattern (made, []) with ⟨result, made', log⟩
  cases result with
  | ok value =>
      obtain ⟨t, ht, hmake, -⟩ := logging_ok hlogged
      rw [parse, parseList_complete ht, hmake]
  | error e =>
      have hfirst := parse_error_iff.mp (congrArg Prod.fst hlogged)
      have herror : (p.parse pattern made).1 = .error e :=
        parse_error_iff.mpr hfirst
      obtain ⟨requests, hrequests, hmade, -⟩ := logging_error hlogged
      obtain ⟨requests', hrequests', hmade'⟩ :=
        requests_of_error (Prod.ext herror rfl)
      rw [hrequests'.unique hrequests, hmade] at hmade'
      exact Prod.ext herror hmade'.symm

/-- The requests of one parse, and the replies to them. Each request belongs to
one atom of the pattern, and they are made in the order of the atoms. An
accepted pattern has its replies at its leaves. A rejected one has asked for
what is complete in front of the error, and for the bracket expression there if
only its closing bracket is missing. -/
theorem parse_asks_once_in_source_order (p : Parser τ σ) (pattern : String)
    (made : τ) :
    ∃ requests replies,
      p.logging.parse pattern (made, []) =
        ((p.parse pattern made).1,
          ((p.parse pattern made).2, requests.zip replies)) ∧
      p.factory.makeAll requests made = (replies, (p.parse pattern made).2) ∧
      replies.length = requests.length ∧
      (∀ b, .bracket b ∈ requests → b.items ≠ [] ∧ ∀ item ∈ b.items,
        item.lo ≤ item.hi ∧ isLiteral item.lo = true ∧
        isLiteral item.hi = true) ∧
      match (p.parse pattern made).1 with
      | .ok t =>
        replies = t.leaves ∧
          if pattern.toList = [emptyWordMark] ∨ pattern.toList = [emptySetMark]
          then requests = []
          else Atoms pattern.toList requests
      | .error e =>
        RequestedBefore e.cause (pattern.toList.take (e.position - 1))
          requests := by
  rw [parse_logging p]
  rcases hlogged : p.logging.parse pattern (made, []) with ⟨result, made', log⟩
  cases result with
  | ok value =>
      obtain ⟨t, ht, hmake, rfl⟩ := logging_ok hlogged
      have hall := p.factory.makeAll_leaves t made
      rw [hmake] at hall
      have hlength := p.factory.makeAll_length t.leaves made
      rw [hall] at hlength
      refine ⟨t.leaves, value.leaves, rfl, hall, hlength,
        fun b hb => ⟨b.nonempty, ?_⟩, rfl, ?_⟩
      · obtain ⟨text, hbracket⟩ := isBracket_of_leaf ht hb
        exact hbracket.bounds
      · exact leaves_of_pattern ht
  | error e =>
      obtain ⟨requests, hrequests, rfl, rfl⟩ := logging_error hlogged
      refine ⟨requests, _, rfl, rfl, p.factory.makeAll_length requests made, ?_,
        hrequests⟩
      intro b hb
      obtain ⟨text, hbracket⟩ := hrequests.isBracket hb
      exact ⟨b.nonempty, hbracket.bounds⟩

/-- A bracket expression without its closing bracket has been asked for. -/
example :
    ((⟨.recorder, 0⟩ : Parser (Array Atom) Atom).parse "x[a" #[]).2 =
      #[.char 'x', .bracket ⟨false, [.single 'a'], by decide⟩] := by
  cbv

end Logging

end Parser

end PatternSyntax
