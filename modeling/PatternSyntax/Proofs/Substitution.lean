import PatternSyntax.Proofs.Exactness
import PatternSyntax.Proofs.SourceOrder
import PatternSyntax.Proofs.TreeText

/-!
# A group in place of a character

Where a pattern has a literal outside of all brackets, it may have any other
base as well. The derivation of the text around it does not notice: what a
production asks of a base is that it is one. So the tree of the new text is the
old tree, with the tree of the base in place of the literal's leaf.

The tree around the leaf is given as the frames on the way down to it. A
derivation step puts one frame around what was derived so far, except for a
group, which puts a pair of parentheses around the text and nothing around the
tree. A group is also the only step that changes the limit, and it changes the
number of parentheses in front of the literal by the same amount. That is the
whole of the arithmetic.
-/

namespace PatternSyntax

/-! ## Trees with a hole -/

namespace Tree

variable {σ ρ : Type}

/-- A node with one of its subtrees missing. -/
inductive Frame (σ : Type) where
  | concatLeft (right : Tree σ)
  | concatRight (left : Tree σ)
  | altLeft (right : Tree σ)
  | altRight (left : Tree σ)
  | star

namespace Frame

def plug : Frame σ → Tree σ → Tree σ
  | concatLeft right, t => .concat t right
  | concatRight left, t => .concat left t
  | altLeft right, t => .alt t right
  | altRight left, t => .alt left t
  | star, t => .star t

/-- The leaves to the left of the missing subtree. -/
def before : Frame σ → List σ
  | concatRight left => left.leaves
  | altRight left => left.leaves
  | _ => []

/-- The leaves to its right. -/
def after : Frame σ → List σ
  | concatLeft right => right.leaves
  | altLeft right => right.leaves
  | _ => []

def map (f : σ → ρ) : Frame σ → Frame ρ
  | concatLeft right => concatLeft (right.map f)
  | concatRight left => concatRight (left.map f)
  | altLeft right => altLeft (right.map f)
  | altRight left => altRight (left.map f)
  | star => star

end Frame

/-- A tree in which one subtree is missing: the frames around it, outermost
first. -/
inductive Context (σ : Type) where
  | hole
  | inside (frame : Frame σ) (inner : Context σ)

namespace Context

def fill : Context σ → Tree σ → Tree σ
  | hole, t => t
  | inside frame C, t => frame.plug (C.fill t)

def before : Context σ → List σ
  | hole => []
  | inside frame C => frame.before ++ C.before

/-- An outer frame has its leaves farther to the right than an inner one. -/
def after : Context σ → List σ
  | hole => []
  | inside frame C => C.after ++ frame.after

def map (f : σ → ρ) : Context σ → Context ρ
  | hole => hole
  | inside frame C => inside (frame.map f) (C.map f)

/-- The leaves before and after the hole are those of the tree around it. -/
theorem leaves_fill (C : Context σ) (t : Tree σ) :
    (C.fill t).leaves = C.before ++ t.leaves ++ C.after := by
  induction C with
  | hole => simp [fill, before, after]
  | inside frame C ih =>
      cases frame <;>
        simp [fill, Frame.plug, before, after, Frame.before, Frame.after,
          leaves, ih]

theorem map_fill (f : σ → ρ) (C : Context σ) (t : Tree σ) :
    (C.fill t).map f = (C.map f).fill (t.map f) := by
  induction C with
  | hole => rfl
  | inside frame C ih =>
      rw [map, fill, fill, ← ih]
      cases frame <;> rfl

theorem before_map (f : σ → ρ) (C : Context σ) :
    (C.map f).before = C.before.map f := by
  induction C with
  | hole => rfl
  | inside frame C ih =>
      cases frame <;> simp [map, Frame.map, before, Frame.before, ih]

theorem after_map (f : σ → ρ) (C : Context σ) :
    (C.map f).after = C.after.map f := by
  induction C with
  | hole => rfl
  | inside frame C ih =>
      cases frame <;> simp [map, Frame.map, after, Frame.after, ih]

end Context

end Tree

/-! ## A base in place of a literal -/

namespace Grammar

variable {n : Nat} {x : Char} {s rest l r u v : List Char} {t : Tree Atom}
  {b : Bracket}

/-- A literal in a text stands in the front part or in the rear one. -/
theorem split_cons (h : s ++ rest = u ++ x :: v) :
    (∃ w, s = u ++ x :: w ∧ v = w ++ rest) ∨
    ∃ w, u = s ++ w ∧ rest = w ++ x :: v := by
  rcases List.append_eq_append_iff.mp h with ⟨w, hu, hrest⟩ | ⟨w, hs, hxv⟩
  · exact Or.inr ⟨w, hu, hrest⟩
  · rcases List.cons_eq_append_iff.mp hxv with ⟨rfl, hrest⟩ | ⟨w', rfl, hv⟩
    · exact Or.inr ⟨[], by rw [hs, List.append_nil, List.append_nil], hrest⟩
    · exact Or.inl ⟨w', hs, hv⟩

/-- The text in front of a literal `x` and the text behind it, in a text that
derives a tree. With a base in the place of `x` they derive the tree with the
base's tree in the place of its leaf, if the limit leaves room for the base
inside the groups that are open there. -/
def HoleAt (derives : Nat → List Char → Tree Atom → Prop) (n : Nat) (x : Char)
    (u v : List Char) (t : Tree Atom) : Prop :=
  ∃ C : Tree.Context Atom, Atoms u C.before ∧ Atoms v C.after ∧
    C.fill (.literal (.char x)) = t ∧
    ∀ m k base q, n ≤ m → k + u.count '(' ≤ m + u.count ')' → Base k base q →
      derives m (u ++ (base ++ v)) (C.fill q)

section Steps

variable {derives derives' : Nat → List Char → Tree Atom → Prop}

theorem HoleAt.mono (h : HoleAt derives n x u v t)
    (hrule : ∀ m s q, derives m s q → derives' m s q) :
    HoleAt derives' n x u v t := by
  obtain ⟨C, hu, hv, ht, hfill⟩ := h
  exact ⟨C, hu, hv, ht, fun m k base q hm hroom hbase =>
    hrule _ _ _ (hfill m k base q hm hroom hbase)⟩

/-- A step that puts a frame around the tree and a text to either side. -/
theorem HoleAt.frame (h : HoleAt derives n x u v t) (frame : Tree.Frame Atom)
    (hl : Atoms l frame.before) (hr : Atoms r frame.after)
    (hgroups : l.count '(' = l.count ')')
    (hrule : ∀ m s q, n ≤ m → derives m s q →
      derives' m (l ++ (s ++ r)) (frame.plug q)) :
    HoleAt derives' n x (l ++ u) (v ++ r) (frame.plug t) := by
  obtain ⟨C, hu, hv, rfl, hfill⟩ := h
  refine ⟨.inside frame C, hl.append hu, hv.append hr, rfl,
    fun m k base q hm hroom hbase => ?_⟩
  rw [List.count_append, List.count_append] at hroom
  have hinner := hrule m _ _ hm (hfill m k base q hm (by omega) hbase)
  simp only [List.append_assoc] at hinner ⊢
  exact hinner

theorem HoleAt.group (h : HoleAt Regex n x u v t) :
    HoleAt Base (n + 1) x ('(' :: u) (v ++ [')']) t := by
  obtain ⟨C, hu, hv, ht, hfill⟩ := h
  refine ⟨C, .operator (by decide) hu, hv.concat_operator (by decide), ht,
    fun m k base q hm hroom hbase => ?_⟩
  obtain ⟨m, rfl⟩ : ∃ m', m = m' + 1 := ⟨m - 1, by omega⟩
  rw [List.count_cons_self, List.count_cons_of_ne (by decide)] at hroom
  have hinner := Base.group (hfill m k base q (by omega) (by omega) hbase)
  simp only [List.append_assoc, List.cons_append] at hinner ⊢
  exact hinner

end Steps

theorem eq_of_singleton {c : Char} (h : [c] = u ++ x :: v) : x = c := by
  have hmem : x ∈ [c] := h ▸ List.mem_append_right u List.mem_cons_self
  exact List.mem_singleton.mp hmem

theorem holeAt_literal {c : Char} (h : [c] = u ++ x :: v) :
    HoleAt Base n x u v (.literal (.char c)) := by
  cases u with
  | nil =>
      obtain ⟨rfl, rfl⟩ := List.cons.inj h
      refine ⟨.hole, .nil, .nil, rfl, fun m k base q _ hroom hbase => ?_⟩
      rw [List.nil_append, List.append_nil]
      exact hbase.mono hroom
  | cons d u => exact absurd (List.cons.inj h).2 (by simp)

/-- In front of a literal within brackets there is a bracket that is still
open. -/
theorem count_ne_in_bracket (hb : IsBracket s b) (hx : isLiteral x = true)
    (h : s = u ++ x :: v) : u.count '[' ≠ u.count ']' := by
  obtain ⟨front, hfront⟩ := head_of_bracket hb
  obtain ⟨body, hbody⟩ := last_of_bracket hb
  rcases split_cons (hbody.symm.trans h) with ⟨w, rfl, -⟩ | ⟨w, -, hw⟩
  · have hclose : s.count ']' = 1 := count_bracket hb (by decide) (by decide)
    rw [hbody, List.count_append, List.count_append,
      List.count_singleton_self] at hclose
    cases u with
    | nil =>
        obtain ⟨rfl, -⟩ := List.cons.inj (hfront.symm.trans h)
        exact absurd hx (by decide)
    | cons c u =>
        obtain ⟨rfl, -⟩ := List.cons.inj (hfront.symm.trans h)
        rw [List.count_cons_self]
        omega
  · cases eq_of_singleton hw
    exact absurd hx (by decide)

mutual

theorem holeAt_regex {n : Nat} {x : Char} {s u v : List Char} {t : Tree Atom}
    (hx : isLiteral x = true) :
    Regex n s t → s = u ++ x :: v → u.count '[' = u.count ']' →
    HoleAt Regex n x u v t
  | .last h, hs, hu => (holeAt_branch hx h hs hu).mono fun _ _ _ => Regex.last
  | .more (s := first) (t := t₁) (u := t₂) h hrest, hs, hu => by
      rcases split_cons hs with ⟨w, hw, rfl⟩ | ⟨w, rfl, hw⟩
      · exact (holeAt_branch hx h hw hu).frame (.altLeft t₂) .nil
          (.operator (by decide) (atoms_of_regex hrest)) rfl
          fun m s q hm hs => .more hs (hrest.mono hm)
      · cases w with
        | nil =>
            obtain ⟨rfl, -⟩ := List.cons.inj hw
            exact absurd hx (by decide)
        | cons c w =>
            obtain ⟨rfl, hrear⟩ := List.cons.inj hw
            have hfirst := balanced_of_branch h
            have hbefore : w.count '[' = w.count ']' := by
              have hcount := hfirst.brackets
              simp only [List.count_append, List.count_cons] at hu
              simpa [hcount] using hu
            have hframe :=
              (holeAt_regex hx hrest hrear hbefore).frame (.altRight t₁)
              (l := first ++ ['|']) (r := [])
              ((atoms_of_branch h).concat_operator (by decide)) .nil
                (by simp [hfirst.groups])
              fun m s q hm hs => by
                rw [List.append_nil, List.append_assoc]
                exact Regex.more (h.mono hm) hs
            rw [List.append_nil, List.append_assoc] at hframe
            exact hframe

theorem holeAt_branch {n : Nat} {x : Char} {s u v : List Char} {t : Tree Atom}
    (hx : isLiteral x = true) :
    Branch n s t → s = u ++ x :: v → u.count '[' = u.count ']' →
    HoleAt Branch n x u v t
  | .last h, hs, hu => (holeAt_factor hx h hs hu).mono fun _ _ _ => Branch.last
  | .more (s := first) (t := t₁) (u := t₂) h hrest, hs, hu => by
      rcases split_cons hs with ⟨w, hw, rfl⟩ | ⟨w, rfl, hw⟩
      · exact (holeAt_factor hx h hw hu).frame (.concatLeft t₂) .nil
          (atoms_of_branch hrest) rfl
          fun m s q hm hs => Branch.more (s := s) hs (hrest.mono hm)
      · have hfirst := balanced_of_factor h
        have hbefore : w.count '[' = w.count ']' := by
          rw [List.count_append, List.count_append, hfirst.brackets] at hu
          exact Nat.add_left_cancel hu
        have hframe :=
          (holeAt_branch hx hrest hw hbefore).frame (.concatRight t₁)
          (atoms_of_factor h) .nil hfirst.groups fun m s q hm hs => by
            rw [List.append_nil]
            exact Branch.more (h.mono hm) hs
        rw [List.append_nil] at hframe
        exact hframe

theorem holeAt_factor {n : Nat} {x : Char} {s u v : List Char} {t : Tree Atom}
    (hx : isLiteral x = true) :
    Factor n s t → s = u ++ x :: v → u.count '[' = u.count ']' →
    HoleAt Factor n x u v t
  | .once h, hs, hu => (holeAt_base hx h hs hu).mono fun _ _ _ => Factor.once
  | .star h, hs, hu => by
      rcases split_cons hs with ⟨w, hw, rfl⟩ | ⟨w, -, hw⟩
      · exact (holeAt_base hx h hw hu).frame .star .nil
          (atoms_operator (by decide)) rfl fun m s q _ hs => .star hs
      · cases eq_of_singleton hw
        exact absurd hx (by decide)

theorem holeAt_base {n : Nat} {x : Char} {s u v : List Char} {t : Tree Atom}
    (hx : isLiteral x = true) :
    Base n s t → s = u ++ x :: v → u.count '[' = u.count ']' →
    HoleAt Base n x u v t
  | .literal _, hs, _ => holeAt_literal hs
  | .group h, hs, hu => by
      cases u with
      | nil =>
          obtain ⟨rfl, -⟩ := List.cons.inj hs
          exact absurd hx (by decide)
      | cons c u =>
          obtain ⟨rfl, hinner⟩ := List.cons.inj hs
          rcases split_cons hinner with ⟨w, hw, rfl⟩ | ⟨w, -, hw⟩
          · rw [List.count_cons_of_ne (by decide),
              List.count_cons_of_ne (by decide)] at hu
            exact (holeAt_regex hx h hw hu).group
          · cases eq_of_singleton hw
            exact absurd hx (by decide)
  | .bracket hb, hs, hu => absurd hu (count_ne_in_bracket hb hx hs)

end

end Grammar

/-! ## Whole patterns -/

namespace Parser

variable {σ : Type}

/-- What a whole pattern denotes when it is the content of a group. A mark is a
literal there. -/
def inGroup (symbol : Atom → σ) (pattern : List Char) (t : Tree σ) : Tree σ :=
  if pattern = [emptyWordMark] then .literal (symbol (.char emptyWordMark))
  else if pattern = [emptySetMark] then .literal (symbol (.char emptySetMark))
  else t

theorem exists_regex_inGroup (symbol : Atom → σ) {n : Nat} {s : List Char}
    {t : Tree Atom} (h : Grammar.Pattern n s t) :
    ∃ t', Grammar.Regex n s t' ∧
      t'.map symbol = inGroup symbol s (t.map symbol) := by
  cases h with
  | emptyWord =>
      refine ⟨.literal (.char emptyWordMark),
        .last (.last (.once (.literal (by decide)))), ?_⟩
      rw [inGroup, if_pos rfl]
      rfl
  | emptySet =>
      refine ⟨.literal (.char emptySetMark),
        .last (.last (.once (.literal (by decide)))), ?_⟩
      rw [inGroup, if_neg (by decide), if_pos rfl]
      rfl
  | regex hword hset hs =>
      refine ⟨t, hs, ?_⟩
      rw [inGroup, if_neg hword, if_neg hset]

/-- A pattern with another character in it than a mark is no mark. -/
theorem regex_of_pattern {n : Nat} {x : Char} {u v : List Char} {t : Tree Atom}
    (h : Grammar.Pattern n (u ++ x :: v) t) (hword : x ≠ emptyWordMark)
    (hset : x ≠ emptySetMark) : Grammar.Regex n (u ++ x :: v) t :=
  h.regex_of_ne (fun hs => hword (Grammar.eq_of_singleton hs.symm))
    (fun hs => hset (Grammar.eq_of_singleton hs.symm))

/-- A plain character of a pattern, outside of all brackets, can be replaced by
a group. The new tree is the old one with the group's tree in the place of the
leaf made for the character, which is the leaf between those of the text before
and those of the text behind. The limit has to allow the old pattern and, inside
of the groups that are open at the character, one group more and all that its
content needs. -/
theorem parse_group_for_char (symbol : Atom → σ) {outer inner limit : UInt32}
    {u v p : String} {x : Char} {t q : Tree σ} (hx : isLiteral x = true)
    (hword : x ≠ emptyWordMark) (hset : x ≠ emptySetMark)
    (hu : u.toList.count '[' = u.toList.count ']')
    (ht : ((⟨.pure symbol, outer⟩ : Parser Unit σ).parse (u.push x ++ v) ()).1 =
      .ok t)
    (hp : ((⟨.pure symbol, inner⟩ : Parser Unit σ).parse p ()).1 = .ok q)
    (houter : outer ≤ limit)
    (hinner : u.toList.count '(' + 1 + inner.toNat ≤
      limit.toNat + u.toList.count ')') :
    ∃ (C : Tree.Context σ) (before after : List Atom),
      Grammar.Atoms u.toList before ∧ C.before = before.map symbol ∧
      Grammar.Atoms v.toList after ∧ C.after = after.map symbol ∧
      C.fill (.literal (symbol (.char x))) = t ∧
      ((⟨.pure symbol, limit⟩ : Parser Unit σ).parse
        (u ++ "(" ++ p ++ ")" ++ v) ()).1 =
        .ok (C.fill (inGroup symbol p.toList q)) := by
  obtain ⟨t, htext, rfl⟩ := parse_pure_eq_ok_iff.mp ht
  obtain ⟨q, hcontent, rfl⟩ := parse_pure_eq_ok_iff.mp hp
  obtain ⟨q', hregex, hq'⟩ := exists_regex_inGroup symbol hcontent
  have hsplit : (u.push x ++ v).toList = u.toList ++ x :: v.toList := by simp
  rw [hsplit] at htext
  obtain ⟨C, hbefore, hafter, rfl, hfill⟩ :=
    Grammar.holeAt_regex hx (regex_of_pattern htext hword hset) rfl hu
  have hreplaced :=
    hfill limit.toNat (inner.toNat + 1) _ q' (UInt32.le_iff_toNat_le.mp houter)
    (by omega) (.group hregex)
  refine ⟨C.map symbol, C.before, C.after, hbefore, C.before_map symbol, hafter,
    C.after_map symbol, (C.map_fill symbol (.literal (.char x))).symm, ?_⟩
  rw [← hq', ← C.map_fill]
  refine parse_pure_eq_ok_iff.mpr ⟨_, ?_, rfl⟩
  have htext' : (u ++ "(" ++ p ++ ")" ++ v).toList =
      u.toList ++ ('(' :: (p.toList ++ [')']) ++ v.toList) := by simp
  rw [htext']
  refine .regex (fun h => ?_) (fun h => ?_) hreplaced
  · exact absurd (Grammar.eq_of_singleton h.symm) (by decide)
  · exact absurd (Grammar.eq_of_singleton h.symm) (by decide)

/-- A group for a starred character that is inside of a group itself. Without
its parentheses it would fall apart. -/
theorem parse_group_for_starred_char :
    let parse (limit : UInt32) (pattern : String) :=
      ((⟨.pure id, limit⟩ : Parser Unit Atom).parse pattern ()).1
    let t : Tree Atom := .alt (.literal (.char 'a'))
      (.concat (.literal (.char 'b')) (.star (.literal (.char 'x'))))
    let q : Tree Atom := .alt (.literal (.char 'c')) (.literal (.char 'd'))
    parse 1 ("a|(b".push 'x' ++ "*)") = .ok t ∧ parse 0 "c|d" = .ok q ∧
      ∃ (C : Tree.Context Atom) (before after : List Atom),
        Grammar.Atoms "a|(b".toList before ∧ C.before = before.map id ∧
        Grammar.Atoms "*)".toList after ∧ C.after = after.map id ∧
        C.fill (.literal (.char 'x')) = t ∧
        parse 2 ("a|(b" ++ "(" ++ "c|d" ++ ")" ++ "*)") = .ok (C.fill q) := by
  intro parse t q
  have hchar : ∀ {n : Nat} {c : Char}, isLiteral c = true →
      Grammar.Base n [c] (.literal (.char c)) := .literal
  have hgroup :
      Grammar.Base 1 ('(' :: (['b'] ++ (['x'] ++ ['*']) ++ [')'])) _ :=
    .group
      (.last (.more (.once (hchar (by decide)))
        (.last (.star (hchar (by decide))))))
  have ht : parse 1 ("a|(b".push 'x' ++ "*)") = .ok t :=
    parse_pure_eq_ok_iff.mpr ⟨_, .regex (by decide) (by decide)
      (.more (.last (.once (hchar (by decide))))
        (.last (.last (.once hgroup)))), rfl⟩
  have hq : parse 0 "c|d" = .ok q :=
    parse_pure_eq_ok_iff.mpr ⟨_, .regex (by decide) (by decide)
      (.more (.last (.once (hchar (by decide))))
        (.last (.last (.once (hchar (by decide)))))), rfl⟩
  exact ⟨ht, hq,
    parse_group_for_char id (by decide) (by decide) (by decide)
      (by decide) ht hq
    (by decide) (by decide)⟩

end Parser

end PatternSyntax
