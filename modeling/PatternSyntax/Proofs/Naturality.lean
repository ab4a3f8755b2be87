import PatternSyntax.Proofs.SymbolRequests

/-!
# One recorded parse stands for all

A factory decides what the leaves of a tree hold, and nothing else. So whatever
a parse with some factory returns can be had from the parse with the recorder.
An error is the same. A tree has its leaves made into symbols, from left to
right, and the log says what the factory was asked for on the way.

The productions need not be walked through again for this. A tree that was
returned is one of the grammar, an error is the first error of the recogniser,
and the requests in front of an error belong to the text there. None of the
three knows of a factory, so two parses of one pattern under one limit agree on
them whatever their factories are.
-/

namespace PatternSyntax

namespace Tree

variable {σ ρ : Type}

/-- The tree without its symbols. -/
def shape (t : Tree σ) : Tree Unit :=
  t.map fun _ => ()

end Tree

namespace SymbolFactory

variable {τ σ : Type}

/-- The symbols have no influence on the nodes above them. -/
theorem shape_makeTree (f : SymbolFactory τ σ) (t : Tree Atom) (made : τ) :
    (f.makeTree t made).1.shape = t.shape := by
  induction t generalizing made with
  | emptyWord => rfl
  | emptySet => rfl
  | literal a => rfl
  | concat l r hl hr => exact congr (congrArg Tree.concat (hl made)) (hr _)
  | alt l r hl hr => exact congr (congrArg Tree.alt (hl made)) (hr _)
  | star x hx => exact congrArg Tree.star (hx made)

theorem makeAll_recorder (atoms : List Atom) (log : Array Atom) :
    recorder.makeAll atoms log = (atoms, log ++ atoms.toArray) := by
  induction atoms generalizing log with
  | nil => simp [makeAll]
  | cons a rest ih =>
      have hstep : recorder.make a log = (a, log.push a) := rfl
      simp [makeAll, hstep, ih]

end SymbolFactory

namespace Parser

variable {τ σ : Type}

/-- What a parse with the recorder returns, and the log it leaves. -/
def recorded (limit : UInt32) (pattern : String) :
    Outcome (Array Atom) (Tree Atom) :=
  (⟨.recorder, limit⟩ : Parser (Array Atom) Atom).parse pattern #[]

/-- A recorded tree is one of the grammar, and its leaves are the log. -/
theorem recorded_eq_ok_iff {limit : UInt32} {pattern : String} {t : Tree Atom}
    {log : Array Atom} :
    recorded limit pattern = (.ok t, log) ↔
      Grammar.Pattern limit.toNat pattern.toList t ∧
      log = t.leaves.toArray := by
  rw [recorded, parse, parseList_eq_ok_iff]
  constructor
  · rintro ⟨u, hu, hmake⟩
    rw [SymbolFactory.makeTree_recorder] at hmake
    obtain ⟨rfl, rfl⟩ := Prod.mk.inj hmake
    exact ⟨hu, by simp⟩
  · rintro ⟨ht, rfl⟩
    refine ⟨t, ht, ?_⟩
    rw [SymbolFactory.makeTree_recorder]
    simp

/-- The parse with a factory is the recorded parse with the requests answered by
the factory. -/
theorem parse_eq_recorded (p : Parser τ σ) (pattern : String) (made : τ) :
    p.parse pattern made =
      ((recorded p.nestLimit pattern).1.map fun t =>
        (p.factory.makeTree t made).1,
        (p.factory.makeAll (recorded p.nestLimit pattern).2.toList
          made).2) := by
  rcases hrecorded : recorded p.nestLimit pattern with ⟨result, log⟩
  cases result with
  | ok t =>
      obtain ⟨ht, rfl⟩ := recorded_eq_ok_iff.mp hrecorded
      rw [parse, parseList_complete ht, List.toList_toArray,
        SymbolFactory.makeAll_leaves]
      rfl
  | error e =>
      have hfirst := parse_error_iff.mp (congrArg Prod.fst hrecorded)
      have herror : (p.parse pattern made).1 = .error e :=
        parse_error_iff.mpr hfirst
      obtain ⟨requests, hrequests, hmade⟩ :=
        requests_of_error (Prod.ext herror rfl)
      obtain ⟨logged, hlogged, hlog⟩ := requests_of_error hrecorded
      rw [SymbolFactory.makeAll_recorder] at hlog
      have hsame : log.toList = requests := by
        rw [hrequests.unique hlogged, ← hlog]
        simp
      rw [hsame]
      exact Prod.ext herror hmade.symm

/-- With a factory that keeps no state the recorded tree is relabelled. -/
theorem parse_pure_eq_recorded (symbol : Atom → σ) (limit : UInt32)
    (pattern : String) :
    ((⟨.pure symbol, limit⟩ : Parser Unit σ).parse pattern ()).1 =
      (recorded limit pattern).1.map (Tree.map symbol) := by
  have hrelabel : (fun t => ((SymbolFactory.pure symbol).makeTree t ()).1) =
      Tree.map symbol :=
    funext fun t => congrArg Prod.fst (SymbolFactory.makeTree_pure symbol t)
  rw [parse_eq_recorded, hrelabel]

theorem parseWithin_eq_recorded (limit : UInt32) (pattern : String) :
    parseWithin limit pattern =
      (recorded limit pattern).1.map (Tree.map CharClass.ofAtom) :=
  parse_pure_eq_recorded CharClass.ofAtom limit pattern

theorem map_shape_eq_recorded (p : Parser τ σ) (pattern : String) (made : τ) :
    (p.parse pattern made).1.map Tree.shape =
      (recorded p.nestLimit pattern).1.map Tree.shape := by
  rw [parse_eq_recorded]
  cases (recorded p.nestLimit pattern).1 with
  | ok t => exact congrArg Except.ok (p.factory.shape_makeTree t made)
  | error e => rfl

/-- Parsing is natural in the factory. A factory without a state relabels the
leaves of the recorded tree; every factory gets the recorded error or a tree of
the recorded shape; and patterns that are recorded alike are the same tree of
character classes or the same error. -/
theorem parse_natural_in_factory (limit : UInt32) (pattern : String) :
    (∀ (σ : Type) (symbol : Atom → σ),
      ((⟨.pure symbol, limit⟩ : Parser Unit σ).parse pattern ()).1 =
        (recorded limit pattern).1.map (Tree.map symbol)) ∧
    (∀ (τ σ : Type) (f : SymbolFactory τ σ) (made : τ),
      ((⟨f, limit⟩ : Parser τ σ).parse pattern made).1.map Tree.shape =
        (recorded limit pattern).1.map Tree.shape) ∧
    (∀ (limit' : UInt32) (pattern' : String),
      (recorded limit' pattern').1 = (recorded limit pattern).1 →
        parseWithin limit' pattern' = parseWithin limit pattern) := by
  refine ⟨fun σ symbol => parse_pure_eq_recorded symbol limit pattern,
    fun τ σ f made => map_shape_eq_recorded ⟨f, limit⟩ pattern made,
      fun limit' pattern' h => ?_⟩
  rw [parseWithin_eq_recorded, parseWithin_eq_recorded, h]

/-- A superfluous group is not recorded. -/
theorem parse_natural_in_factory_of_grouped :
    (recorded 1 "(a)b*").1 = (recorded 0 "ab*").1 ∧
      parseWithin 1 "(a)b*" = parseWithin 0 "ab*" ∧
      ((⟨.pure Atom.spelling, 1⟩ : Parser Unit (List Char)).parse
        "(a)b*" ()).1 =
        .ok (.concat (.literal ['a']) (.star (.literal ['b']))) := by
  let t : Tree Atom :=
    .concat (.literal (.char 'a')) (.star (.literal (.char 'b')))
  have hchar : ∀ {n : Nat} {c : Char}, isLiteral c = true →
      Grammar.Base n [c] (.literal (.char c)) := .literal
  have hgroup : Grammar.Base 1 ('(' :: (['a'] ++ [')'])) _ :=
    .group (.last (.last (.once (hchar (by decide)))))
  have hgrouped : recorded 1 "(a)b*" = (.ok t, t.leaves.toArray) :=
    recorded_eq_ok_iff.mpr ⟨.regex (by decide) (by decide)
      (.last (.more (.once hgroup) (.last (.star (hchar (by decide)))))), rfl⟩
  have hplain : recorded 0 "ab*" = (.ok t, t.leaves.toArray) :=
    recorded_eq_ok_iff.mpr ⟨.regex (by decide) (by decide)
      (.last (.more (.once (hchar (by decide)))
        (.last (.star (hchar (by decide)))))), rfl⟩
  have hsame : (recorded 1 "(a)b*").1 = (recorded 0 "ab*").1 := by
    rw [hgrouped, hplain]
  obtain ⟨hpure, -, -⟩ := parse_natural_in_factory 1 "(a)b*"
  obtain ⟨-, -, hclasses⟩ := parse_natural_in_factory 0 "ab*"
  refine ⟨hsame, hclasses 1 "(a)b*" hsame, ?_⟩
  rw [hpure, hgrouped]
  rfl

end Parser

end PatternSyntax
