import Mathlib.Data.List.Chain
import PatternSyntax.Bracket.Spelling
import PatternSyntax.Grammar

/-!
# Items and their spelling

Whatever the grammar reads in brackets, it has read from the spelling of the
items, since an item keeps all of its characters. The converse fails for one
reason. A spelling does not say where an item ends, and behind a single
character a dash is the sign of a range, even if it was meant to begin the next
item. The grammar has no single character in front of a dash, so such a spelling
is a text of other items or of none.

Nothing else can go wrong. A range ends behind its upper bound, whatever comes
next.
-/

namespace PatternSyntax

/-- Behind this item, a dash that begins the next one is read as the sign of a
range. -/
def BracketItem.Captures : BracketItem → BracketItem → Prop
  | single _, next => next.lo = '-'
  | range _ _, _ => False

instance (item next : BracketItem) : Decidable (item.Captures next) :=
  match item with
  | .single _ => inferInstanceAs (Decidable (next.lo = '-'))
  | .range _ _ => inferInstanceAs (Decidable False)

/-- No item captures a dash of the one behind it. -/
def KeepDashes (items : List BracketItem) : Prop :=
  items.IsChain fun item next => ¬ item.Captures next

instance (items : List BracketItem) : Decidable (KeepDashes items) :=
  inferInstanceAs (Decidable (items.IsChain _))

theorem spellItems_cons (item : BracketItem) (rest : List BracketItem) :
    spellItems (item :: rest) = item.spelling ++ spellItems rest :=
  List.flatMap_cons

/-- The spelling of items begins with the lower bound of the first. -/
theorem head?_spellItems (items : List BracketItem) :
    (spellItems items).head? = items.head?.map BracketItem.lo := by
  cases items with
  | nil => rfl
  | cons item rest =>
      rw [spellItems_cons]
      cases item with
      | single c => rfl
      | range lo hi => rfl

theorem keepDashes_cons {item : BracketItem} {rest : List BracketItem} :
    KeepDashes (item :: rest) ↔
      (∀ next ∈ rest.head?, ¬ item.Captures next) ∧ KeepDashes rest :=
  List.isChain_cons

/-- A single character captures a dash if one stands behind it in the text. -/
theorem keepDashes_single {c : Char} {rest : List BracketItem} :
    KeepDashes (.single c :: rest) ↔
      (spellItems rest).head? ≠ some '-' ∧ KeepDashes rest := by
  rw [keepDashes_cons, head?_spellItems]
  cases rest with
  | nil => simp
  | cons next rest => simp [BracketItem.Captures]

theorem keepDashes_range {lo hi : Char} {rest : List BracketItem} :
    KeepDashes (.range lo hi :: rest) ↔ KeepDashes rest := by
  rw [keepDashes_cons]
  exact and_iff_right fun next _ hcaptures => hcaptures

/-- A dash that begins the first item has no item before it. -/
theorem keepDashes_of_tail {items : List BracketItem}
    (h : ∀ item ∈ items.tail, item.lo ≠ '-') :
    KeepDashes items := by
  induction items with
  | nil => exact .nil
  | cons item rest ih =>
      refine keepDashes_cons.mpr ⟨fun next hnext hcaptures => ?_, ?_⟩
      · have hdash := h next (List.mem_of_mem_head? hnext)
        cases item with
        | single c => exact hdash hcaptures
        | range lo hi => exact hcaptures
      · exact ih fun next hnext => h next (List.mem_of_mem_tail hnext)

namespace Grammar

variable {s : List Char} {items : List BracketItem} {b : Bracket}

/-- Items that were read have been read from their spelling. -/
theorem Items.eq_spelling (h : Items s items) : s = spellItems items := by
  induction h with
  | nil => rfl
  | single _ _ _ ih =>
      rw [spellItems_cons, ← ih]
      rfl
  | range _ _ _ _ ih =>
      rw [spellItems_cons, ← ih]
      rfl

/-- No item that was read captures a dash. -/
theorem Items.keepDashes (h : Items s items) : KeepDashes items := by
  induction h with
  | nil => exact .nil
  | single _ hdash hrest ih =>
      rw [hrest.eq_spelling] at hdash
      exact keepDashes_single.mpr ⟨hdash, ih⟩
  | range _ _ _ _ ih => exact keepDashes_range.mpr ih

/-- Where no dash is captured, the spelling is divided into the items. -/
theorem items_of_keepDashes
    (hbounds : ∀ item ∈ items, item.lo ≤ item.hi ∧ isLiteral item.lo = true ∧
      isLiteral item.hi = true)
    (h : KeepDashes items) : Items (spellItems items) items := by
  induction items with
  | nil => exact .nil
  | cons item rest ih =>
      obtain ⟨⟨hle, hlo, hhi⟩, hrestBounds⟩ := List.forall_mem_cons.mp hbounds
      cases item with
      | single c =>
          obtain ⟨hdash, hrest⟩ := keepDashes_single.mp h
          exact .single hlo hdash (ih hrestBounds hrest)
      | range lo hi =>
          have hrest := keepDashes_range.mp h
          exact .range hlo hhi hle (ih hrestBounds hrest)

/-! ## Whole bracket expressions -/

theorem IsBracket.eq_spelling (h : IsBracket s b) : s = b.spelling := by
  cases h with
  | plain hitems =>
      rw [hitems.eq_spelling]
      rfl
  | negated hitems =>
      rw [hitems.eq_spelling]
      rfl

theorem isBracket_spelling {negated : Bool} {items : List BracketItem}
    {hne : items ≠ []} (h : Items (spellItems items) items) :
    IsBracket (Bracket.spelling ⟨negated, items, hne⟩)
      ⟨negated, items, hne⟩ := by
  cases negated with
  | false => exact .plain h
  | true => exact .negated h

theorem IsBracket.keepDashes (h : IsBracket s b) : KeepDashes b.items := by
  cases h with
  | plain hitems => exact hitems.keepDashes
  | negated hitems => exact hitems.keepDashes

end Grammar

end PatternSyntax
