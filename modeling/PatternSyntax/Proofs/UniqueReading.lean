import PatternSyntax.Text.Quoted

/-!
# Texts that can be told apart

When several texts are written one behind the other, each of them has to say by
itself where it ends and what it stands for. A text that does so is read as one
value only, whatever comes behind it. Pairs and lists of such texts, with commas
between them, are again such texts.

For a quoted character two things have to come together. One sees where it ends,
because inside of the quotes a quote has a backslash before it, and a backslash
always takes the next character with it. And one sees which character is meant,
because every escape can be undone. Nothing else about the quoting matters to a
text with quoted characters in it. So the two are stated as properties of any
way to quote, and the one in use has them.
-/

namespace PatternSyntax

section Texts

variable {α β : Type}

/-- No other value has a text that begins like this one, whatever comes behind
the two. -/
def ReadsAs (text : α → String) (a : α) : Prop :=
  ∀ ⦃b : α⦄ ⦃rest rest' : List Char⦄,
    (text a).toList ++ rest = (text b).toList ++ rest' → a = b

variable {text : α → String} {other : β → String} {a a' : α} {b b' : β}
  {rest rest' : List Char}

/-- The values are equal, and what comes behind their texts too. -/
theorem ReadsAs.split (ha : ReadsAs text a)
    (h : (text a).toList ++ rest = (text a').toList ++ rest') :
    a = a' ∧ rest = rest' := by
  obtain rfl := ha h
  exact ⟨rfl, List.append_cancel_left h⟩

theorem ReadsAs.pair (ha : ReadsAs text a) (hb : ReadsAs other b)
    (h : (text a ++ ", " ++ other b).toList ++ rest =
      (text a' ++ ", " ++ other b').toList ++ rest') : a = a' ∧ b = b' := by
  simp only [String.toList_append, List.append_assoc] at h
  obtain ⟨rfl, hbehind⟩ := ha.split h
  exact ⟨rfl, hb (List.append_cancel_left hbehind)⟩

/-- The further items of a list, each behind a comma. -/
def behindCommas (text : α → String) (items : List α) : List Char :=
  items.flatMap fun item => ',' :: ' ' :: (text item).toList

theorem intercalate_cons_toList (text : α → String) (item : α)
    (items : List α) :
    (String.intercalate ", " ((item :: items).map text)).toList =
      (text item).toList ++ behindCommas text items := by
  induction items generalizing item with
  | nil => simp [behindCommas]
  | cons next items ih =>
      rw [List.map_cons, List.map_cons, String.intercalate_cons_cons,
        String.toList_append, String.toList_append, ← List.map_cons, ih,
        List.append_assoc]
      rfl

/-- The items of a list are told apart if the list is closed by a bracket. -/
theorem behindCommas_unique {items items' : List α}
    (hitems : ∀ item, ReadsAs text item)
    (h : behindCommas text items ++ ']' :: rest =
      behindCommas text items' ++ ']' :: rest') :
    items = items' := by
  induction items generalizing items' with
  | nil =>
      cases items' with
      | nil => rfl
      | cons item' items' => exact absurd (List.cons.inj h).1 (by decide)
  | cons item items ih =>
      cases items' with
      | nil => exact absurd (List.cons.inj h).1 (by decide)
      | cons item' items' =>
          simp only [behindCommas, List.flatMap_cons, List.cons_append,
            List.append_assoc] at h
          obtain ⟨rfl, hbehind⟩ :=
            (hitems item).split (List.cons.inj (List.cons.inj h).2).2
          rw [ih hbehind]

theorem intercalate_unique {items items' : List α}
    (hitems : ∀ item, ReadsAs text item)
    (hopen : ∀ item, (text item).toList.head? = some '(')
    (h : (String.intercalate ", " (items.map text)).toList ++ ']' :: rest =
      (String.intercalate ", " (items'.map text)).toList ++ ']' :: rest') :
    items = items' := by
  -- A list that is closed at once is not taken for one with a first item.
  have hclose (item : α) (behind rest : List Char) :
      (text item).toList ++ behind ≠ ']' :: rest := by
    intro heq
    have hhead := congrArg List.head? heq
    rw [List.head?_append, hopen] at hhead
    cases hhead
  cases items with
  | nil =>
      cases items' with
      | nil => rfl
      | cons item' items' =>
          rw [intercalate_cons_toList, List.append_assoc] at h
          exact absurd h.symm (hclose _ _ _)
  | cons item items =>
      rw [intercalate_cons_toList, List.append_assoc] at h
      cases items' with
      | nil => exact absurd h (hclose _ _ _)
      | cons item' items' =>
          rw [intercalate_cons_toList, List.append_assoc] at h
          obtain ⟨rfl, hbehind⟩ := (hitems item).split h
          rw [behindCommas_unique hitems hbehind]

end Texts

/-! ## Quoted characters -/

/-- A text between two quotes: the closing quote is the first that no backslash
takes with it. -/
inductive Escaped : List Char → Prop where
  | nil : Escaped []
  | plain {c : Char} {rest : List Char} :
      c ≠ '\'' → c ≠ '\\' → Escaped rest → Escaped (c :: rest)
  | escape {c : Char} {rest : List Char} :
      Escaped rest → Escaped ('\\' :: c :: rest)

/-- A way to write characters in single quotes, each differently. -/
structure QuotesChars (quote : Char → String) : Prop where
  quoted : ∀ c, ∃ body,
    Escaped body ∧ (quote c).toList = '\'' :: (body ++ ['\''])
  injective : ∀ {c d : Char}, quote c = quote d → c = d

/-- Where a text in quotes ends does not depend on what comes behind. -/
theorem Escaped.unique {body body' rest rest' : List Char}
    (hbody : Escaped body) (hbody' : Escaped body')
    (h : body ++ '\'' :: rest = body' ++ '\'' :: rest') :
    body = body' := by
  induction hbody generalizing body' with
  | nil =>
      cases hbody' with
      | nil => rfl
      | plain hquote _ _ => exact absurd (List.cons.inj h).1.symm hquote
      | escape _ => exact absurd (List.cons.inj h).1 (by decide)
  | plain hquote hslash _ ih =>
      cases hbody' with
      | nil => exact absurd (List.cons.inj h).1 hquote
      | plain _ _ hrest' =>
          obtain ⟨rfl, htail⟩ := List.cons.inj h
          rw [ih hrest' htail]
      | escape _ => exact absurd (List.cons.inj h).1 hslash
  | escape _ ih =>
      cases hbody' with
      | nil => exact absurd (List.cons.inj h).1 (by decide)
      | plain _ hslash _ => exact absurd (List.cons.inj h).1.symm hslash
      | escape hrest' =>
          obtain ⟨rfl, htail⟩ := List.cons.inj (List.cons.inj h).2
          rw [ih hrest' htail]

theorem QuotesChars.readsAs {quote : Char → String} (hquote : QuotesChars quote)
    (c : Char) :
    ReadsAs quote c := by
  intro d rest rest' h
  obtain ⟨body, hbody, hc⟩ := hquote.quoted c
  obtain ⟨body', hbody', hd⟩ := hquote.quoted d
  rw [hc, hd, List.cons_append, List.cons_append, List.append_assoc,
    List.append_assoc] at h
  have hsame := hbody.unique hbody' (List.cons.inj h).2
  refine hquote.injective (String.toList_injective ?_)
  rw [hc, hd, hsame]

/-! ## Hexadecimal digits -/

def hexValue (digit : Char) : Nat :=
  if digit.isDigit then digit.toNat - '0'.toNat
    else digit.toNat - 'a'.toNat + 10

def readHex (digits : List Char) : Nat :=
  digits.foldl (fun n digit => 16 * n + hexValue digit) 0

theorem hexValue_digitChar : ∀ d < 16, hexValue (Nat.digitChar d) = d := by
  decide

theorem readHex_toDigits (n : Nat) : readHex (Nat.toDigits 16 n) = n := by
  induction n using Nat.strongRecOn with
  | ind n ih =>
      rw [Nat.toDigits_eq_if (by decide)]
      split
      · next hlt =>
          simp [readHex, hexValue_digitChar n hlt]
      · next hle =>
          have hdigit := hexValue_digitChar (n % 16) (Nat.mod_lt n (by decide))
          have hfront := ih (n / 16) (by omega)
          rw [readHex] at hfront ⊢
          rw [List.foldl_append, hfront, List.foldl_cons, List.foldl_nil,
            hdigit]
          omega

theorem digitChar_of_mem_toDigits {n : Nat} {c : Char}
    (h : c ∈ Nat.toDigits 16 n) :
    ∃ d, c = Nat.digitChar d := by
  induction n using Nat.strongRecOn with
  | ind n ih =>
      rw [Nat.toDigits_eq_if (by decide)] at h
      split at h
      · exact ⟨n, List.mem_singleton.mp h⟩
      · rcases List.mem_append.mp h with hfront | hlast
        · exact ih (n / 16) (by omega) hfront
        · exact ⟨n % 16, List.mem_singleton.mp hlast⟩

/-! ## Escapes can be undone -/

/-- The character that is written as the text between two quotes. -/
def unescape : List Char → Char
  | ['\\', c] =>
    if c = '0' then '\x00'
    else if c = 't' then '\t'
    else if c = 'r' then '\r'
    else if c = 'n' then '\n'
    else c
  | '\\' :: 'u' :: '\x7b' :: digits => Char.ofNat (readHex digits.dropLast)
  | c :: _ => c
  | [] => '\x00'

theorem codePointEscape_toList (c : Char) : (codePointEscape c).toList =
    '\\' :: 'u' :: '\x7b' :: (Nat.toDigits 16 c.toNat ++ ['\x7d']) := by
  simp [codePointEscape]

/-- No character of a code point escape but its first is a quote, a backslash or
the end of a line. -/
theorem plain_of_mem_codePointEscape {c d : Char}
    (h : d ∈ 'u' :: '\x7b' :: (Nat.toDigits 16 c.toNat ++ ['\x7d'])) :
    d ≠ '\'' ∧ d ≠ '\\' ∧ d ≠ '\n' := by
  simp only [List.mem_cons, List.mem_append, List.not_mem_nil, or_false] at h
  rcases h with rfl | rfl | hdigit | rfl
  · decide
  · decide
  · obtain ⟨n, rfl⟩ := digitChar_of_mem_toDigits hdigit
    exact ⟨Nat.digitChar_ne _ (by decide), Nat.digitChar_ne _ (by decide),
      Nat.digitChar_ne _ (by decide)⟩
  · decide

/-- A character is written with a letter of its own behind a backslash, as it
is, or by its code point. -/
theorem escapeInside_cases (shown : Char → Bool) (c : Char) :
    (∃ letter, (escapeInside shown c).toList = ['\\', letter] ∧ letter ≠ '\n' ∧
        unescape ['\\', letter] = c) ∨
      ((escapeInside shown c).toList = [c] ∧ c ≠ '\'' ∧ c ≠ '\\' ∧ c ≠ '\n') ∨
      (escapeInside shown c).toList =
        '\\' :: 'u' :: '\x7b' :: (Nat.toDigits 16 c.toNat ++ ['\x7d']) := by
  rw [escapeInside]
  -- The four controls come first, whichever characters are shown as they are.
  split
  · next h => exact Or.inl ⟨'0', rfl, by decide, h.symm⟩
  · split
    · next h => exact Or.inl ⟨'t', rfl, by decide, h.symm⟩
    · split
      · next h => exact Or.inl ⟨'r', rfl, by decide, h.symm⟩
      · split
        · next h => exact Or.inl ⟨'n', rfl, by decide, h.symm⟩
        · next hline =>
            split
            · next h =>
                refine Or.inl ⟨c, by simp, hline, ?_⟩
                rcases h with rfl | rfl
                all_goals rfl
            · next h =>
                obtain ⟨hslash, hquote⟩ := not_or.mp h
                split
                · exact Or.inr
                    (Or.inl ⟨String.toList_singleton c, hquote, hslash, hline⟩)
                · exact Or.inr (Or.inr (codePointEscape_toList c))

theorem unescape_escapeInside (shown : Char → Bool) (c : Char) :
    unescape (escapeInside shown c).toList = c := by
  rcases escapeInside_cases shown c with ⟨letter, htext, -, hletter⟩
    | ⟨htext, -, hslash, -⟩ | htext
  · rw [htext, hletter]
  · rw [htext, unescape]
    all_goals simp [hslash]
  · rw [htext, unescape, List.dropLast_concat, readHex_toDigits,
      Char.ofNat_toNat]

theorem escaped_of_plain {s : List Char} (h : ∀ c ∈ s, c ≠ '\'' ∧ c ≠ '\\') :
    Escaped s := by
  induction s with
  | nil => exact .nil
  | cons c rest ih =>
      obtain ⟨⟨hquote, hslash⟩, hrest⟩ := List.forall_mem_cons.mp h
      exact .plain hquote hslash (ih hrest)

theorem escaped_escapeInside (shown : Char → Bool) (c : Char) :
    Escaped (escapeInside shown c).toList := by
  rcases escapeInside_cases shown c with ⟨letter, htext, -⟩
    | ⟨htext, hquote, hslash, -⟩ | htext
  · rw [htext]
    exact .escape .nil
  · rw [htext]
    exact .plain hquote hslash .nil
  · rw [htext]
    refine .escape (escaped_of_plain fun d hd => ?_)
    obtain ⟨hquote, hslash, -⟩ :=
      plain_of_mem_codePointEscape (List.mem_cons_of_mem 'u' hd)
    exact ⟨hquote, hslash⟩

theorem quoteChar_toList (shown : Char → Bool) (c : Char) :
    (quoteChar shown c).toList =
      '\'' :: ((escapeInside shown c).toList ++ ['\'']) := by
  simp [quoteChar]

/-- The quoting in use writes each character differently, in quotes that end
where they seem to. -/
theorem quotesChars_quoteChar (shown : Char → Bool) :
    QuotesChars (quoteChar shown) where
  quoted c := ⟨_, escaped_escapeInside shown c, quoteChar_toList shown c⟩
  injective {c d} h := by
    have htext := congrArg String.toList h
    rw [quoteChar_toList, quoteChar_toList] at htext
    have hbody := List.append_cancel_right (List.cons.inj htext).2
    rw [← unescape_escapeInside shown c, hbody, unescape_escapeInside]

/-- A quoted character stays on its line, also if it is the end of one. -/
theorem newline_not_mem_quoteChar (shown : Char → Bool) (c : Char) :
    '\n' ∉ (quoteChar shown c).toList := by
  intro h
  simp only [quoteChar_toList, List.mem_cons, List.mem_append, List.not_mem_nil,
    or_false] at h
  rcases h with hquote | hbody | hquote
  · exact absurd hquote (by decide)
  · rcases escapeInside_cases shown c with ⟨letter, htext, hletter, -⟩
      | ⟨htext, -, -, hline⟩ | htext
    · rw [htext] at hbody
      simp only [List.mem_cons, List.not_mem_nil, or_false] at hbody
      rcases hbody with hslash | rfl
      · exact absurd hslash (by decide)
      · exact hletter rfl
    · rw [htext] at hbody
      exact hline (List.mem_singleton.mp hbody).symm
    · rw [htext] at hbody
      rcases List.mem_cons.mp hbody with hslash | hbehind
      · exact absurd hslash (by decide)
      · exact (plain_of_mem_codePointEscape hbehind).2.2 rfl
  · exact absurd hquote (by decide)

end PatternSyntax
