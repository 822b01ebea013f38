import FileRoutes.Json.Printer
import FileRoutes.Json.Reader
import Mathlib.Data.List.Basic

/-!
# A printed value is read back

The compact and the indented text of a value differ in the blanks between tokens alone. So both are
texts of one printer that is told what to put there (`Json.Spacing`), and one proof does for both:
whatever the blanks, a value is read back from its text and what follows is left
(`Json.Spacing.reads`). A reader that follows arrays and objects through a number of levels reads
the values that nest no deeper, and no others.

Each sort of value, of items and of members has a lemma of its own that reading it back follows from
reading back what is in it. The one about items speaks of all that is up to the closing bracket, so
that the blanks in front of a comma or a bracket belong to what is read and not to what is left. The
end of a numeral shows only in what follows it; no configuration has numbers, and here values are
without any.

Main results: `Json.Spacing.readWithin_ofList` and `Json.Spacing.read_ofList`.
-/

namespace FileRoutes.Json

/-! ### Values without numbers, and their nesting -/

mutual

/-- No number is in the value. -/
def NumberFree : Json → Prop
  | .number _ => False
  | .array items => NumberFreeItems items
  | .object members => NumberFreeMembers members
  | _ => True

/-- No number is in the items. -/
def NumberFreeItems : List Json → Prop
  | [] => True
  | item :: rest => item.NumberFree ∧ NumberFreeItems rest

/-- No number is in the values of the members. -/
def NumberFreeMembers : List (String × Json) → Prop
  | [] => True
  | (_, value) :: rest => value.NumberFree ∧ NumberFreeMembers rest

end

mutual

/-- How many levels of arrays and objects are in the value. -/
def nesting : Json → Nat
  | .array items => nestingItems items + 1
  | .object members => nestingMembers members + 1
  | _ => 0

/-- How many levels of arrays and objects are in one of the items at most. -/
def nestingItems : List Json → Nat
  | [] => 0
  | item :: rest => max item.nesting (nestingItems rest)

/-- How many levels of arrays and objects are in the value of one of the members at most. -/
def nestingMembers : List (String × Json) → Nat
  | [] => 0
  | (_, value) :: rest => max value.nesting (nestingMembers rest)

end

/-! ### Blanks -/

section

variable {blanks : List Char} {c : Char} {fuel depth : Nat}

/-- Blanks in front are skipped. -/
theorem skipBlanks_append (h : ∀ c ∈ blanks, isBlank c = true) (chars : List Char) :
    skipBlanks (blanks ++ chars) = skipBlanks chars :=
  List.dropWhile_append_of_pos h

theorem skipBlanks_cons (h : isBlank c = false) (chars : List Char) :
    skipBlanks (c :: chars) = c :: chars :=
  List.dropWhile_cons_of_neg (by simp [h])

/-- A value may stand behind blanks. -/
theorem readValue_append (h : ∀ c ∈ blanks, isBlank c = true) (chars : List Char) :
    readValue fuel depth (blanks ++ chars) = readValue fuel depth chars := by
  cases fuel with
  | zero => rw [readValue, readValue]
  | succ fuel => rw [readValue, readValue, skipBlanks_append h]

/-- Items may stand behind blanks. -/
theorem readItems_append (h : ∀ c ∈ blanks, isBlank c = true) (chars : List Char) :
    readItems fuel depth (blanks ++ chars) = readItems fuel depth chars := by
  cases fuel with
  | zero => rw [readItems, readItems]
  | succ fuel => rw [readItems, readItems, readValue_append h]

/-- Members may stand behind blanks. -/
theorem readMembers_append (h : ∀ c ∈ blanks, isBlank c = true) (chars : List Char) :
    readMembers fuel depth (blanks ++ chars) = readMembers fuel depth chars := by
  cases fuel with
  | zero => rw [readMembers, readMembers]
  | succ fuel => rw [readMembers, readMembers, skipBlanks_append h]

end

/-! ### Strings -/

section

variable {c letter : Char}

/-- How a character is escaped: by a letter that stands for it, as four hexadecimal digits, or not
at all. -/
theorem escapedChar_cases (c : Char) :
    (∃ letter, letter ≠ 'u' ∧ unescaped? letter = some c ∧ escapedChar c = ['\\', letter]) ∨
    (c.toNat < 0x20 ∧
      escapedChar c = ['\\', 'u', '0', '0', hexDigit (c.toNat / 16), hexDigit c.toNat]) ∨
    (0x20 ≤ c.toNat ∧ c ≠ '"' ∧ c ≠ '\\' ∧ escapedChar c = [c]) := by
  by_cases hletter : c ∈ ['"', '\\', '\x08', '\x0c', '\n', '\r', '\t']
  · left
    simp only [List.mem_cons, List.not_mem_nil, or_false] at hletter
    rcases hletter with rfl | rfl | rfl | rfl | rfl | rfl | rfl
    exacts [⟨'"', by decide⟩, ⟨'\\', by decide⟩, ⟨'b', by decide⟩, ⟨'f', by decide⟩,
      ⟨'n', by decide⟩, ⟨'r', by decide⟩, ⟨'t', by decide⟩]
  · right
    simp only [List.mem_cons, List.not_mem_nil, or_false, not_or] at hletter
    obtain ⟨hquote, hbackslash, hb, hf, hn, hr, ht⟩ := hletter
    by_cases hcontrol : c.toNat < 0x20
    · exact .inl ⟨hcontrol, by simp [escapedChar, *]⟩
    · exact .inr ⟨by omega, hquote, hbackslash, by simp [escapedChar, *]⟩

/-- The four digits of a control are read as its number. -/
theorem hexNumber?_control {n : Nat} (h : n < 0x20) :
    hexNumber? ['0', '0', hexDigit (n / 16), hexDigit n] = some n := by
  have key : ∀ n < 0x20, hexNumber? ['0', '0', hexDigit (n / 16), hexDigit n] = some n := by
    decide
  exact key n h

/-- A character is read back, whatever follows it in the string. -/
theorem readString_escapedChar (c : Char) (more : List Char) :
    readString (escapedChar c ++ more) =
      (readString more).bind fun (text, rest) => some (c :: text, rest) := by
  obtain ⟨letter, hu, hletter, h⟩ | ⟨hcontrol, h⟩ | ⟨hcontrol, hquote, hbackslash, h⟩ :=
    escapedChar_cases c
  · rw [h]
    simp [readString, hu, hletter]
  · have hnumber := hexNumber?_control hcontrol
    have hhigh : ¬ (0xd800 ≤ c.toNat ∧ c.toNat < 0xdc00) := by omega
    have hlow : ¬ (0xdc00 ≤ c.toNat ∧ c.toNat < 0xe000) := by omega
    rw [h]
    simp [readString, hnumber, hhigh, hlow, Char.ofNat_toNat]
  · rw [h]
    simp [readString, hbackslash, Nat.not_lt.2 hcontrol]

/-- **A string is read back** up to its closing quote. -/
theorem readString_flatMap (text rest : List Char) :
    readString (text.flatMap escapedChar ++ '"' :: rest) = some (text, rest) := by
  induction text with
  | nil => simp [readString]
  | cons c text ih =>
    rw [List.flatMap_cons, List.append_assoc, readString_escapedChar, ih]
    rfl

end

/-! ### Printing with blanks between tokens -/

/-- What stands between the tokens of a text: nothing but blanks. -/
structure Spacing where
  /-- What stands in front of an item or member, and in front of the bracket behind the last one, by
  the level of these. -/
  gap : Nat → List Char
  /-- What stands between the colon of a member and its value. -/
  afterColon : List Char
  isBlank_gap : ∀ level, ∀ c ∈ gap level, isBlank c = true
  isBlank_afterColon : ∀ c ∈ afterColon, isBlank c = true

namespace Spacing

/-- Nothing stands between tokens. -/
def tight : Spacing where
  gap _ := []
  afterColon := []
  isBlank_gap := by simp
  isBlank_afterColon := by simp

/-- Items and members are on lines of their own. -/
def indented : Spacing where
  gap := newLine
  afterColon := [' ']
  isBlank_gap level c hc := by
    rcases List.mem_cons.1 hc with rfl | hc
    · rfl
    · rw [List.eq_of_mem_replicate hc]
      rfl
  isBlank_afterColon := by simp [isBlank]

@[simp] theorem gap_tight (level : Nat) : tight.gap level = [] := rfl

@[simp] theorem afterColon_tight : tight.afterColon = [] := rfl

@[simp] theorem gap_indented (level : Nat) : indented.gap level = newLine level := rfl

@[simp] theorem afterColon_indented : indented.afterColon = [' '] := rfl

mutual

/-- The characters of a value that stands at `level`. -/
def chars (s : Spacing) (level : Nat) : Json → List Char
  | .null => compactChars .null
  | .bool b => compactChars (.bool b)
  | .number numeral => compactChars (.number numeral)
  | .string text => compactChars (.string text)
  | .array [] => ['[', ']']
  | .array items =>
    '[' :: (s.gap (level + 1) ++ (s.itemChars (level + 1) items ++ (s.gap level ++ [']'])))
  | .object [] => ['\x7b', '\x7d']
  | .object members =>
    '\x7b' :: (s.gap (level + 1) ++ (s.memberChars (level + 1) members ++
      (s.gap level ++ ['\x7d'])))

/-- The characters of items at `level`. -/
def itemChars (s : Spacing) (level : Nat) : List Json → List Char
  | [] => []
  | [item] => s.chars level item
  | item :: rest => s.chars level item ++ ',' :: (s.gap level ++ s.itemChars level rest)

/-- The characters of members at `level`. -/
def memberChars (s : Spacing) (level : Nat) : List (String × Json) → List Char
  | [] => []
  | [(name, value)] => stringChars name ++ ':' :: (s.afterColon ++ s.chars level value)
  | (name, value) :: rest =>
    stringChars name ++ ':' :: (s.afterColon ++ (s.chars level value ++
      ',' :: (s.gap level ++ s.memberChars level rest)))

end

mutual

/-- In the compact text of a value nothing stands between tokens. -/
theorem chars_tight (level : Nat) : (v : Json) → tight.chars level v = compactChars v
  | .null | .bool _ | .number _ | .string _ => by rw [chars]
  | .array [] => by simp [chars, compactChars, compactItems]
  | .array (item :: rest) => by
    simp [chars, compactChars, itemChars_tight (level + 1) (item :: rest)]
  | .object [] => by simp [chars, compactChars, compactMembers]
  | .object (member :: rest) => by
    simp [chars, compactChars, memberChars_tight (level + 1) (member :: rest)]

theorem itemChars_tight (level : Nat) :
    (items : List Json) → tight.itemChars level items = compactItems items
  | [] => by rw [itemChars, compactItems]
  | [item] => by rw [itemChars, compactItems, chars_tight level item]
  | item :: next :: rest => by
    simp [itemChars, compactItems, chars_tight level item, itemChars_tight level (next :: rest)]

theorem memberChars_tight (level : Nat) :
    (members : List (String × Json)) → tight.memberChars level members = compactMembers members
  | [] => by rw [memberChars, compactMembers]
  | [(name, value)] => by simp [memberChars, compactMembers, chars_tight level value]
  | (name, value) :: next :: rest => by
    simp [memberChars, compactMembers, chars_tight level value,
      memberChars_tight level (next :: rest)]

end

mutual

/-- In the indented text of a value items and members are on lines of their own. -/
theorem chars_indented (level : Nat) : (v : Json) → indented.chars level v = prettyChars level v
  | .null | .bool _ | .number _ | .string _ => by rw [chars, prettyChars]
  | .array [] => by simp [chars, prettyChars]
  | .array (item :: rest) => by
    simp [chars, prettyChars, itemChars_indented (level + 1) (item :: rest)]
  | .object [] => by simp [chars, prettyChars]
  | .object (member :: rest) => by
    simp [chars, prettyChars, memberChars_indented (level + 1) (member :: rest)]

theorem itemChars_indented (level : Nat) :
    (items : List Json) → indented.itemChars level items = prettyItems level items
  | [] => by rw [itemChars, prettyItems]
  | [item] => by rw [itemChars, prettyItems, chars_indented level item]
  | item :: next :: rest => by
    simp [itemChars, prettyItems, chars_indented level item,
      itemChars_indented level (next :: rest)]

theorem memberChars_indented (level : Nat) : (members : List (String × Json)) →
    indented.memberChars level members = prettyMembers level members
  | [] => by rw [memberChars, prettyMembers]
  | [(name, value)] => by simp [memberChars, prettyMembers, chars_indented level value]
  | (name, value) :: next :: rest => by
    simp [memberChars, prettyMembers, chars_indented level value,
      memberChars_indented level (next :: rest)]

end

/-! ### Reading what was printed -/

variable {s : Spacing} {level fuel depth : Nat} {c : Char} {more tail rest : List Char}

theorem chars_array_cons (s : Spacing) (level : Nat) (item : Json) (items : List Json) :
    s.chars level (.array (item :: items)) = '[' :: (s.gap (level + 1) ++
      (s.itemChars (level + 1) (item :: items) ++ (s.gap level ++ [']']))) := by
  rw [chars]
  simp

theorem chars_object_cons (s : Spacing) (level : Nat) (member : String × Json)
    (members : List (String × Json)) :
    s.chars level (.object (member :: members)) = '\x7b' :: (s.gap (level + 1) ++
      (s.memberChars (level + 1) (member :: members) ++ (s.gap level ++ ['\x7d']))) := by
  rw [chars]
  simp

theorem itemChars_cons_cons (s : Spacing) (level : Nat) (item next : Json) (items : List Json) :
    s.itemChars level (item :: next :: items) =
      s.chars level item ++ ',' :: (s.gap level ++ s.itemChars level (next :: items)) := by
  rw [itemChars]
  simp

theorem memberChars_cons_cons (s : Spacing) (level : Nat) (name : String) (value : Json)
    (next : String × Json) (members : List (String × Json)) :
    s.memberChars level ((name, value) :: next :: members) =
      stringChars name ++ ':' :: (s.afterColon ++ (s.chars level value ++
        ',' :: (s.gap level ++ s.memberChars level (next :: members)))) := by
  rw [memberChars]
  simp

/-- The text of a value opens with a character that is no blank and closes no array. -/
theorem exists_chars_eq (s : Spacing) (level : Nat) {v : Json} (h : v.NumberFree) :
    ∃ c more, s.chars level v = c :: more ∧ isBlank c = false ∧ c ≠ ']' := by
  cases v with
  | null => exact ⟨'n', _, by rw [chars, compactChars], by decide⟩
  | bool b => cases b <;> exact ⟨_, _, by rw [chars, compactChars], by decide⟩
  | number numeral => exact absurd h (by simp [NumberFree])
  | string text => exact ⟨'"', _, by rw [chars, compactChars, stringChars]; rfl, by decide⟩
  | array items =>
    cases items with
    | nil => exact ⟨'[', _, by rw [chars], by decide⟩
    | cons item items => exact ⟨'[', _, chars_array_cons s level item items, by decide⟩
  | object members =>
    cases members with
    | nil => exact ⟨'\x7b', _, by rw [chars], by decide⟩
    | cons member members => exact ⟨'\x7b', _, chars_object_cons s level member members, by decide⟩

/-- The text of items opens with a character that is no blank and closes no array. -/
theorem exists_itemChars_eq (s : Spacing) (level : Nat) {item : Json} (items : List Json)
    (h : item.NumberFree) :
    ∃ c more, s.itemChars level (item :: items) = c :: more ∧ isBlank c = false ∧ c ≠ ']' := by
  obtain ⟨c, more, heq, hc⟩ := exists_chars_eq s level h
  cases items with
  | nil => exact ⟨c, more, by rw [itemChars, heq], hc⟩
  | cons next items => exact ⟨c, _, by rw [itemChars, heq, List.cons_append]; simp, hc⟩

/-- The text of members opens with the quote of a name. -/
theorem exists_memberChars_eq (s : Spacing) (level : Nat) (member : String × Json)
    (members : List (String × Json)) :
    ∃ more, s.memberChars level (member :: members) = '"' :: more := by
  obtain ⟨name, value⟩ := member
  cases members with
  | nil => exact ⟨_, by rw [memberChars, stringChars, List.cons_append, List.cons_append]⟩
  | cons next members =>
    exact ⟨_, by rw [memberChars_cons_cons, stringChars, List.cons_append, List.cons_append]⟩

/-- There is fuel for one step at least if there is twice as much as characters. -/
theorem exists_eq_succ_of_length_le {fuel : Nat} (h : 2 * (c :: more).length ≤ fuel) :
    ∃ left, fuel = left + 1 :=
  Nat.exists_eq_add_one_of_ne_zero (by rw [List.length_cons] at h; omega)

/-- Without a level to follow there is no array to read. -/
theorem readValue_bracket_zero : readValue (fuel + 1) 0 ('[' :: more) = none := by
  rw [readValue, skipBlanks_cons (by decide)]
  rfl

/-- An array is read item by item if it has any. -/
theorem readValue_bracket (h : skipBlanks more = c :: tail) (hc : c ≠ ']') :
    readValue (fuel + 1) (depth + 1) ('[' :: more) =
      (readItems fuel depth (c :: tail)).bind fun (items, rest) => some (.array items, rest) := by
  rw [readValue, skipBlanks_cons (by decide)]
  simp only [h, List.cons.injEq, hc, false_and, imp_self, implies_true, Option.map_eq_bind]
  rfl

/-- Without a level to follow there is no object to read. -/
theorem readValue_brace_zero : readValue (fuel + 1) 0 ('\x7b' :: more) = none := by
  rw [readValue, skipBlanks_cons (by decide)]
  rfl

/-- An object is read member by member if it has any. -/
theorem readValue_brace (h : skipBlanks more = '"' :: tail) :
    readValue (fuel + 1) (depth + 1) ('\x7b' :: more) =
      (readMembers fuel depth ('"' :: tail)).bind fun (members, rest) =>
        some (.object members, rest) := by
  rw [readValue, skipBlanks_cons (by decide)]
  simp only [h, List.cons.injEq, Char.reduceEq, false_and, imp_self, implies_true,
    Option.map_eq_bind]
  rfl

/-- The value is read back from its text at every level, as far as it does not nest too deeply, and
what follows is left. -/
structure Reads (s : Spacing) (v : Json) : Prop where
  eq : ∀ (level fuel depth : Nat) (rest : List Char), 2 * (s.chars level v).length ≤ fuel →
    readValue fuel depth (s.chars level v ++ rest) =
      if v.nesting ≤ depth then some (v, rest) else none

/-- The items are read back from their text, up to the bracket that closes the array. -/
structure ReadsItems (s : Spacing) (items : List Json) : Prop where
  eq : ∀ (level fuel depth : Nat) (tail rest : List Char), skipBlanks tail = ']' :: rest →
    2 * (s.itemChars level items).length + 1 ≤ fuel →
    readItems fuel depth (s.itemChars level items ++ tail) =
      if nestingItems items ≤ depth then some (items, rest) else none

/-- The members are read back from their text, up to the brace that closes the object. -/
structure ReadsMembers (s : Spacing) (members : List (String × Json)) : Prop where
  eq : ∀ (level fuel depth : Nat) (tail rest : List Char), skipBlanks tail = '\x7d' :: rest →
    2 * (s.memberChars level members).length + 1 ≤ fuel →
    readMembers fuel depth (s.memberChars level members ++ tail) =
      if nestingMembers members ≤ depth then some (members, rest) else none

theorem Reads.null : Reads s .null := by
  refine ⟨fun level fuel depth rest hfuel => ?_⟩
  rw [chars, compactChars] at hfuel ⊢
  obtain ⟨fuel, rfl⟩ := exists_eq_succ_of_length_le hfuel
  rw [List.cons_append, readValue, skipBlanks_cons (by decide)]
  simp [nesting]

theorem Reads.bool (b : Bool) : Reads s (.bool b) := by
  refine ⟨fun level fuel depth rest hfuel => ?_⟩
  cases b <;>
  · rw [chars, compactChars] at hfuel ⊢
    obtain ⟨fuel, rfl⟩ := exists_eq_succ_of_length_le hfuel
    rw [List.cons_append, readValue, skipBlanks_cons (by decide)]
    simp [nesting]

theorem Reads.string (text : String) : Reads s (.string text) := by
  refine ⟨fun level fuel depth rest hfuel => ?_⟩
  rw [chars, compactChars, stringChars, List.cons_append] at hfuel ⊢
  obtain ⟨fuel, rfl⟩ := exists_eq_succ_of_length_le hfuel
  rw [List.cons_append, readValue, skipBlanks_cons (by decide)]
  simp [nesting, readString_flatMap]

theorem Reads.array_nil : Reads s (.array []) := by
  refine ⟨fun level fuel depth rest hfuel => ?_⟩
  rw [chars] at hfuel ⊢
  obtain ⟨fuel, rfl⟩ := exists_eq_succ_of_length_le hfuel
  cases depth with
  | zero => simp [readValue_bracket_zero, nesting]
  | succ depth =>
    rw [List.cons_append, readValue, skipBlanks_cons (by decide)]
    simp only [List.singleton_append, skipBlanks_cons (c := ']') (by decide)]
    simp [nesting, nestingItems]

theorem Reads.object_nil : Reads s (.object []) := by
  refine ⟨fun level fuel depth rest hfuel => ?_⟩
  rw [chars] at hfuel ⊢
  obtain ⟨fuel, rfl⟩ := exists_eq_succ_of_length_le hfuel
  cases depth with
  | zero => simp [readValue_brace_zero, nesting]
  | succ depth =>
    rw [List.cons_append, readValue, skipBlanks_cons (by decide)]
    simp only [List.singleton_append, skipBlanks_cons (c := '\x7d') (by decide)]
    simp [nesting, nestingMembers]

/-- A token is found behind the gap in front of it. -/
theorem skipBlanks_gap_append (s : Spacing) (level : Nat) (hc : isBlank c = false)
    (rest : List Char) : skipBlanks (s.gap level ++ c :: rest) = c :: rest := by
  rw [skipBlanks_append (s.isBlank_gap level), skipBlanks_cons hc]

theorem ReadsItems.array {item : Json} {items : List Json} (hfree : item.NumberFree)
    (h : ReadsItems s (item :: items)) : Reads s (.array (item :: items)) := by
  refine ⟨fun level fuel depth rest hfuel => ?_⟩
  rw [chars_array_cons] at hfuel ⊢
  obtain ⟨fuel, rfl⟩ := exists_eq_succ_of_length_le hfuel
  cases depth with
  | zero => simp [readValue_bracket_zero, nesting]
  | succ depth =>
    -- the text of the first item is not taken for the end of the array
    obtain ⟨c, more, hopen, hblank, hc⟩ := exists_itemChars_eq s (level + 1) items hfree
    have hstart : skipBlanks (s.gap (level + 1) ++ (s.itemChars (level + 1) (item :: items) ++
        (s.gap level ++ ']' :: rest))) = c :: (more ++ (s.gap level ++ ']' :: rest)) := by
      rw [hopen, List.cons_append, s.skipBlanks_gap_append _ hblank]
    simp only [List.length_cons, List.length_append] at hfuel
    have hitems := h.eq (level + 1) fuel depth _ rest
      (s.skipBlanks_gap_append level (by decide) rest) (by omega)
    rw [hopen, List.cons_append] at hitems
    simp only [List.cons_append, List.append_assoc, List.nil_append]
    rw [readValue_bracket hstart hc, hitems, nesting]
    by_cases hdepth : nestingItems (item :: items) ≤ depth <;> simp [hdepth]

theorem ReadsItems.singleton {item : Json} (h : Reads s item) : ReadsItems s [item] := by
  refine ⟨fun level fuel depth tail rest htail hfuel => ?_⟩
  obtain ⟨fuel, rfl⟩ := Nat.exists_eq_add_one_of_ne_zero (show fuel ≠ 0 by omega)
  rw [itemChars] at hfuel ⊢
  rw [readItems, h.eq level fuel depth tail (by omega)]
  by_cases hdepth : item.nesting ≤ depth <;> simp [hdepth, htail, nestingItems]

theorem ReadsItems.cons {item next : Json} {items : List Json} (h : Reads s item)
    (k : ReadsItems s (next :: items)) : ReadsItems s (item :: next :: items) := by
  refine ⟨fun level fuel depth tail rest htail hfuel => ?_⟩
  obtain ⟨fuel, rfl⟩ := Nat.exists_eq_add_one_of_ne_zero (show fuel ≠ 0 by omega)
  rw [itemChars_cons_cons] at hfuel ⊢
  simp only [List.length_cons, List.length_append] at hfuel
  have hrest : readItems fuel depth (s.gap level ++ (s.itemChars level (next :: items) ++ tail)) =
      if nestingItems (next :: items) ≤ depth then some (next :: items, rest) else none := by
    rw [readItems_append (s.isBlank_gap level), k.eq level fuel depth tail rest htail (by omega)]
  have hcomma : ∀ chars, skipBlanks (',' :: chars) = ',' :: chars := skipBlanks_cons (by decide)
  simp only [List.append_assoc, List.cons_append]
  rw [readItems, h.eq level fuel depth _ (by omega), nestingItems]
  simp only [Nat.max_le]
  by_cases hitem : item.nesting ≤ depth
  · by_cases hitems : nestingItems (next :: items) ≤ depth <;> simp [hitem, hitems, hcomma, hrest]
  · simp [hitem]

/-- A member is read up to its value. -/
theorem readMembers_stringChars (name : String) (chars : List Char) :
    readMembers (fuel + 1) depth (stringChars name ++ ':' :: chars) =
      (readValue fuel depth chars).bind fun (value, rest) =>
        match skipBlanks rest with
        | ',' :: rest => (readMembers fuel depth rest).bind fun (members, rest) =>
          some ((name, value) :: members, rest)
        | '\x7d' :: rest => some ([(name, value)], rest)
        | _ => none := by
  have hquote : ∀ chars, skipBlanks ('"' :: chars) = '"' :: chars := skipBlanks_cons (by decide)
  have hcolon : ∀ chars, skipBlanks (':' :: chars) = ':' :: chars := skipBlanks_cons (by decide)
  rw [readMembers, stringChars, List.cons_append, List.cons_append, hquote, List.append_assoc,
    List.singleton_append]
  simp only [readString_flatMap, Option.bind_eq_bind, Option.bind_some, hcolon,
    String.ofList_toList]
  rfl

theorem ReadsMembers.object {member : String × Json} {members : List (String × Json)}
    (h : ReadsMembers s (member :: members)) : Reads s (.object (member :: members)) := by
  refine ⟨fun level fuel depth rest hfuel => ?_⟩
  rw [chars_object_cons] at hfuel ⊢
  obtain ⟨fuel, rfl⟩ := exists_eq_succ_of_length_le hfuel
  cases depth with
  | zero => simp [readValue_brace_zero, nesting]
  | succ depth =>
    obtain ⟨more, hopen⟩ := exists_memberChars_eq s (level + 1) member members
    have hstart : skipBlanks (s.gap (level + 1) ++ (s.memberChars (level + 1) (member :: members) ++
        (s.gap level ++ '\x7d' :: rest))) = '"' :: (more ++ (s.gap level ++ '\x7d' :: rest)) := by
      rw [hopen, List.cons_append, s.skipBlanks_gap_append _ (by decide)]
    simp only [List.length_cons, List.length_append] at hfuel
    have hmembers := h.eq (level + 1) fuel depth _ rest
      (s.skipBlanks_gap_append level (by decide) rest) (by omega)
    rw [hopen, List.cons_append] at hmembers
    simp only [List.cons_append, List.append_assoc, List.nil_append]
    rw [readValue_brace hstart, hmembers, nesting]
    by_cases hdepth : nestingMembers (member :: members) ≤ depth <;> simp [hdepth]

theorem ReadsMembers.singleton {value : Json} (name : String) (h : Reads s value) :
    ReadsMembers s [(name, value)] := by
  refine ⟨fun level fuel depth tail rest htail hfuel => ?_⟩
  obtain ⟨fuel, rfl⟩ := Nat.exists_eq_add_one_of_ne_zero (show fuel ≠ 0 by omega)
  rw [memberChars] at hfuel ⊢
  simp only [List.length_cons, List.length_append] at hfuel
  simp only [List.append_assoc, List.cons_append]
  rw [readMembers_stringChars, readValue_append s.isBlank_afterColon,
    h.eq level fuel depth tail (by omega)]
  by_cases hdepth : value.nesting ≤ depth <;> simp [hdepth, htail, nestingMembers]

theorem ReadsMembers.cons {value : Json} {next : String × Json} {members : List (String × Json)}
    (name : String) (h : Reads s value) (k : ReadsMembers s (next :: members)) :
    ReadsMembers s ((name, value) :: next :: members) := by
  refine ⟨fun level fuel depth tail rest htail hfuel => ?_⟩
  obtain ⟨fuel, rfl⟩ := Nat.exists_eq_add_one_of_ne_zero (show fuel ≠ 0 by omega)
  rw [memberChars_cons_cons] at hfuel ⊢
  simp only [List.length_cons, List.length_append] at hfuel
  have hrest : readMembers fuel depth
      (s.gap level ++ (s.memberChars level (next :: members) ++ tail)) =
        if nestingMembers (next :: members) ≤ depth then some (next :: members, rest)
        else none := by
    rw [readMembers_append (s.isBlank_gap level), k.eq level fuel depth tail rest htail (by omega)]
  have hcomma : ∀ chars, skipBlanks (',' :: chars) = ',' :: chars := skipBlanks_cons (by decide)
  simp only [List.append_assoc, List.cons_append]
  rw [readMembers_stringChars, readValue_append s.isBlank_afterColon,
    h.eq level fuel depth _ (by omega), nestingMembers]
  simp only [Nat.max_le]
  by_cases hvalue : value.nesting ≤ depth
  · by_cases hmembers : nestingMembers (next :: members) ≤ depth <;>
      simp [hvalue, hmembers, hcomma, hrest]
  · simp [hvalue]

mutual

/-- **A value is read back** from its text, whatever the blanks. -/
theorem reads (s : Spacing) : (v : Json) → v.NumberFree → Reads s v
  | .null, _ => .null
  | .bool b, _ => .bool b
  | .string text, _ => .string text
  | .array [], _ => .array_nil
  | .array (item :: items), h => (readsItems s (item :: items) (by simp) h).array h.1
  | .object [], _ => .object_nil
  | .object (member :: members), h => (readsMembers s (member :: members) (by simp) h).object

theorem readsItems (s : Spacing) : (items : List Json) → items ≠ [] → NumberFreeItems items →
    ReadsItems s items
  | [item], _, h => .singleton (reads s item h.1)
  | item :: next :: items, _, h =>
    .cons (reads s item h.1) (readsItems s (next :: items) (by simp) h.2)

theorem readsMembers (s : Spacing) : (members : List (String × Json)) → members ≠ [] →
    NumberFreeMembers members → ReadsMembers s members
  | [(name, value)], _, h => .singleton name (reads s value h.1)
  | (name, value) :: next :: members, _, h =>
    .cons name (reads s value h.1) (readsMembers s (next :: members) (by simp) h.2)

end

/-! ### Texts -/

mutual

/-- Each level of a value has a bracket in its text. -/
theorem nesting_le_length (s : Spacing) (level : Nat) :
    (v : Json) → v.nesting ≤ (s.chars level v).length
  | .null | .bool _ | .number _ | .string _ => by simp [nesting]
  | .array [] | .object [] => by simp [nesting, nestingItems, nestingMembers, chars]
  | .array (item :: items) => by
    have hitems := nestingItems_le_length s (level + 1) (item :: items)
    rw [nesting, chars_array_cons]
    simp only [List.length_cons, List.length_append]
    omega
  | .object (member :: members) => by
    have hmembers := nestingMembers_le_length s (level + 1) (member :: members)
    rw [nesting, chars_object_cons]
    simp only [List.length_cons, List.length_append]
    omega

theorem nestingItems_le_length (s : Spacing) (level : Nat) :
    (items : List Json) → nestingItems items ≤ (s.itemChars level items).length
  | [] => by simp [nestingItems]
  | [item] => by
    have hitem := nesting_le_length s level item
    rwa [nestingItems, nestingItems, Nat.max_zero, itemChars]
  | item :: next :: items => by
    have hitem := nesting_le_length s level item
    have hitems := nestingItems_le_length s level (next :: items)
    rw [nestingItems, itemChars_cons_cons]
    simp only [List.length_cons, List.length_append]
    omega

theorem nestingMembers_le_length (s : Spacing) (level : Nat) :
    (members : List (String × Json)) → nestingMembers members ≤ (s.memberChars level members).length
  | [] => by simp [nestingMembers]
  | [(name, value)] => by
    have hvalue := nesting_le_length s level value
    rw [nestingMembers, nestingMembers, Nat.max_zero, memberChars]
    simp only [List.length_cons, List.length_append]
    omega
  | (name, value) :: next :: members => by
    have hvalue := nesting_le_length s level value
    have hmembers := nestingMembers_le_length s level (next :: members)
    rw [nestingMembers, memberChars_cons_cons]
    simp only [List.length_cons, List.length_append]
    omega

end

variable {v : Json} {blanks : List Char}

/-- **The text of a value is read** if it does not nest too deeply. Blanks may follow. -/
theorem readWithin_ofList (hv : v.NumberFree) (hblanks : ∀ c ∈ blanks, isBlank c = true) :
    readWithin depth (String.ofList (s.chars level v ++ blanks)) =
      if v.nesting ≤ depth then some v else none := by
  have hskip : skipBlanks blanks = [] := by
    rw [← List.append_nil blanks, skipBlanks_append hblanks]
    rfl
  rw [readWithin, String.toList_ofList, (reads s v hv).eq level _ depth blanks (by simp; omega)]
  by_cases hdepth : v.nesting ≤ depth <;> simp [hdepth, hskip]

/-- **The text of a value is read**, without a limit on the nesting. Blanks may follow. -/
theorem read_ofList (hv : v.NumberFree) (hblanks : ∀ c ∈ blanks, isBlank c = true) :
    read (String.ofList (s.chars level v ++ blanks)) = some v := by
  have hnesting := nesting_le_length s level v
  rw [read, readWithin_ofList hv hblanks, if_pos (by simp; omega)]

end Spacing

end FileRoutes.Json
