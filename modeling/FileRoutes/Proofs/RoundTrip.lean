import FileRoutes.Entry.Json
import FileRoutes.Proofs.JsonText

/-!
# A configuration is read back from its JSON

What is left out where an entry is written is what reading puts there by default, so the value of a
configuration is read back. Its text then is as well, since values are read back from their texts,
whether compact or indented (`Json.Spacing.reads`). What is read back determines what was written:
configurations that are written alike are the same.

Main result: `Entry.round_trip`.
-/

namespace FileRoutes.Entry

open Json

/-! ### The value of a configuration -/

mutual

/-- An entry is read back from its value. -/
theorem ofJson?_toJson : (e : Entry) → ofJson? e.toJson = some e
  | ⟨path, file, isIndex, []⟩ => by
    cases path <;> cases isIndex <;>
      simp [toJson, ofJson?, ofMembers, pathOfJson?, text?, bool?, Draft.finish?]
  | ⟨path, file, isIndex, child :: rest⟩ => by
    have hchildren : listOfJson? (.array (child.toJson :: toJsonEach rest)) =
        some (child :: rest) := by
      rw [listOfJson?, ← toJsonEach]
      exact ofEach?_toJsonEach (child :: rest)
    cases path <;> cases isIndex <;>
      simp [toJson, ofJson?, ofMembers, pathOfJson?, text?, bool?, Draft.finish?, hchildren]

/-- Entries are read back from their values. -/
theorem ofEach?_toJsonEach : (es : List Entry) → ofEach? (toJsonEach es) = some es
  | [] => by rw [toJsonEach, ofEach?]
  | e :: rest => by
    rw [toJsonEach, ofEach?, ofJson?_toJson e, ofEach?_toJsonEach rest]
    rfl

end

/-- A configuration is read back from its value. -/
theorem listOfJson?_toJsonAll (entries : List Entry) :
    listOfJson? (toJsonAll entries) = some entries := by
  rw [toJsonAll, listOfJson?, ofEach?_toJsonEach]

mutual

theorem numberFree_toJson : (e : Entry) → e.toJson.NumberFree
  | ⟨path, file, isIndex, []⟩ => by
    cases path <;> cases isIndex <;> simp [toJson, NumberFree, NumberFreeMembers]
  | ⟨path, file, isIndex, child :: rest⟩ => by
    have hchildren := numberFreeItems_toJsonEach (child :: rest)
    rw [toJsonEach] at hchildren
    cases path <;> cases isIndex <;>
      simpa [toJson, NumberFree, NumberFreeMembers] using hchildren

theorem numberFreeItems_toJsonEach : (es : List Entry) → NumberFreeItems (toJsonEach es)
  | [] => by simp [toJsonEach, NumberFreeItems]
  | e :: rest => by
    rw [toJsonEach, NumberFreeItems]
    exact ⟨numberFree_toJson e, numberFreeItems_toJsonEach rest⟩

end

/-- No number is in the value of a configuration. -/
theorem numberFree_toJsonAll (entries : List Entry) : (toJsonAll entries).NumberFree := by
  rw [toJsonAll, NumberFree]
  exact numberFreeItems_toJsonEach entries

/-! ### The texts of a configuration -/

/-- Reading the text gives the configuration: always, if the reader follows arrays and objects as
deeply as they nest, and else exactly if they do not nest more deeply than it follows them. -/
structure IsReadFrom (entries : List Entry) (text : String) : Prop where
  unlimited : (Json.read text).bind listOfJson? = some entries
  limited : ∀ depth, (readWithin depth text).bind listOfJson? =
    if (toJsonAll entries).nesting ≤ depth then some entries else none

/-- A configuration is read from its text, with whatever blanks between tokens and behind it. -/
theorem isReadFrom_ofList (s : Spacing) {blanks : List Char}
    (hblanks : ∀ c ∈ blanks, isBlank c = true) (entries : List Entry) :
    IsReadFrom entries (String.ofList (s.chars 0 (toJsonAll entries) ++ blanks)) where
  unlimited := by
    rw [s.read_ofList (numberFree_toJsonAll entries) hblanks, Option.bind_some,
      listOfJson?_toJsonAll]
  limited depth := by
    rw [s.readWithin_ofList (numberFree_toJsonAll entries) hblanks]
    split
    case isTrue => rw [Option.bind_some, listOfJson?_toJsonAll]
    case isFalse => rfl

/-- The text of a configuration, on one line or on indented lines. -/
def text (isPretty : Bool) (entries : List Entry) : String :=
  if isPretty then prettyText entries else compactText entries

/-- Both texts are those of one printer. -/
theorem exists_text_eq (isPretty : Bool) :
    ∃ s : Spacing, ∀ entries, text isPretty entries =
      String.ofList (s.chars 0 (toJsonAll entries)) := by
  cases isPretty with
  | false => exact ⟨.tight, fun entries => by rw [Spacing.chars_tight]; rfl⟩
  | true => exact ⟨.indented, fun entries => by rw [Spacing.chars_indented]; rfl⟩

/-- Two configurations that are read from one text are the same. -/
theorem IsReadFrom.unique {entries others : List Entry} {text : String}
    (h : IsReadFrom entries text) (k : IsReadFrom others text) : entries = others :=
  Option.some.inj (h.unlimited.symm.trans k.unlimited)

/-- **A configuration is read back from its JSON**, however deeply it nests and whatever its texts
are: from the value, and from the compact and the indented text, also with a line break at the end.
So no two configurations have the same value or the same text. -/
theorem round_trip :
    (∀ entries, listOfJson? (toJsonAll entries) = some entries ∧
      ∀ isPretty, IsReadFrom entries (text isPretty entries) ∧
        IsReadFrom entries (text isPretty entries ++ "\n")) ∧
    toJsonAll.Injective ∧ ∀ isPretty, (text isPretty).Injective := by
  have hread : ∀ isPretty entries, IsReadFrom entries (text isPretty entries) ∧
      IsReadFrom entries (text isPretty entries ++ "\n") := by
    intro isPretty entries
    obtain ⟨s, hs⟩ := exists_text_eq isPretty
    have hline : text isPretty entries ++ "\n" =
        String.ofList (s.chars 0 (toJsonAll entries) ++ ['\n']) := by
      rw [hs, String.ofList_append]
    refine ⟨?_, hline ▸ isReadFrom_ofList s (by simp [isBlank]) entries⟩
    rw [hs, ← List.append_nil (s.chars 0 _)]
    exact isReadFrom_ofList s (by simp) entries
  refine ⟨fun entries => ⟨listOfJson?_toJsonAll entries, fun isPretty => hread isPretty entries⟩,
    fun es fs h => ?_, fun isPretty es fs h => ?_⟩
  · exact Option.some.inj ((listOfJson?_toJsonAll es).symm.trans (h ▸ listOfJson?_toJsonAll fs))
  · exact (hread isPretty es).1.unique (h ▸ (hread isPretty fs).1)

end FileRoutes.Entry
