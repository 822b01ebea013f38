import FileRoutes.Ignore
import FileRoutes.Proofs.Tokens
import Mathlib.Data.List.Basic

/-!
# Patterns that can be read

A pattern for everything below a directory is read a second time without the slash and the two stars
at its end. This never goes wrong: what stands before them can be read whenever the whole pattern
can (`Glob.Pattern.exists_ofText_of_treeOf?`), since it spells tokens of its own
(`Glob.Spells.of_append_treeEnd`).

So only the patterns that were given decide whether a set of them can be read, and the first of them
that cannot is at fault. Main result: `IgnoreSet.exists_ofTexts_eq_ok_iff`.
-/

namespace FileRoutes

section

variable {ε α β : Type}

/-- Steps taken in turn fail with the first of them that does. -/
theorem mapM_eq_error_iff {f : α → Except ε β} {l : List α} {e : ε} :
    l.mapM f = .error e ↔ ∃ before a after, l = before ++ a :: after ∧
      (∀ b ∈ before, ∃ result, f b = .ok result) ∧ f a = .error e := by
  induction l with
  | nil => simp [pure, Except.pure]
  | cons a rest ih =>
    rw [List.mapM_cons]
    cases hfirst : f a with
    | error first =>
      constructor
      · intro h
        obtain rfl : first = e := Except.error.inj h
        exact ⟨[], a, rest, rfl, by simp, hfirst⟩
      · rintro ⟨_ | ⟨b, before⟩, c, after, hsplit, hbefore, hc⟩
        · obtain ⟨rfl, rfl⟩ := List.cons.inj hsplit
          obtain rfl := Except.error.inj (hfirst.symm.trans hc)
          rfl
        · obtain ⟨rfl, -⟩ := List.cons.inj hsplit
          obtain ⟨result, hok⟩ := hbefore a List.mem_cons_self
          simp [hfirst] at hok
    | ok result =>
      have hrest : (do let others ← rest.mapM f; pure (result :: others) : Except ε (List β)) =
          .error e ↔ rest.mapM f = .error e := by
        cases rest.mapM f <;> simp [bind, Except.bind, pure, Except.pure]
      refine hrest.trans (ih.trans ⟨?_, ?_⟩)
      · rintro ⟨before, c, after, rfl, hbefore, hc⟩
        exact ⟨a :: before, c, after, rfl, List.forall_mem_cons.2 ⟨⟨result, hfirst⟩, hbefore⟩, hc⟩
      · rintro ⟨_ | ⟨b, before⟩, c, after, hsplit, hbefore, hc⟩
        · obtain ⟨rfl, rfl⟩ := List.cons.inj hsplit
          simp [hfirst] at hc
        · obtain ⟨rfl, rfl⟩ := List.cons.inj hsplit
          exact ⟨before, c, after, rfl, (List.forall_mem_cons.1 hbefore).2, hc⟩

/-- Steps taken in turn succeed only if each of them does, and what they give comes from one. -/
theorem of_mapM_eq_ok {f : α → Except ε β} {l : List α} {results : List β}
    (h : l.mapM f = .ok results) :
    (∀ a ∈ l, ∃ b, f a = .ok b) ∧ ∀ b ∈ results, ∃ a ∈ l, f a = .ok b := by
  induction l generalizing results with
  | nil =>
    obtain rfl : [] = results := Except.ok.inj h
    simp
  | cons a rest ih =>
    rw [List.mapM_cons] at h
    cases hfirst : f a with
    | error e => simp [hfirst, bind, Except.bind] at h
    | ok first =>
      cases hrest : rest.mapM f with
      | error e => simp [hfirst, hrest, bind, Except.bind] at h
      | ok others =>
        obtain rfl : first :: others = results := by
          simpa [hfirst, hrest, bind, Except.bind, pure, Except.pure] using h
        obtain ⟨hall, hfrom⟩ := ih hrest
        refine ⟨List.forall_mem_cons.2 ⟨⟨first, hfirst⟩, hall⟩, List.forall_mem_cons.2 ⟨?_, ?_⟩⟩
        · exact ⟨a, List.mem_cons_self, hfirst⟩
        · intro b hb
          obtain ⟨c, hc, hcb⟩ := hfrom b hb
          exact ⟨c, List.mem_cons_of_mem _ hc, hcb⟩

end

/-! ### Leaving out the end -/

namespace Glob

/-- A pattern for everything below a directory is that of the directory with an end. -/
theorem toList_of_treeOf? {text directory : String}
    (h : IgnoreSet.treeOf? text = some directory) :
    text.toList = directory.toList ++ treeEnd := by
  unfold IgnoreSet.treeOf? at h
  split at h
  · next c rest hsuffix =>
    obtain rfl := Option.some.inj h
    rw [String.toList_ofList]
    exact (List.isSuffixOf?_eq_some_iff_append_eq.1 hsuffix).symm
  · simp at h

/-- **The pattern of a directory can be read** if the pattern for everything below it can. -/
theorem Pattern.exists_ofText_of_treeOf? {text directory : String}
    (hdirectory : IgnoreSet.treeOf? text = some directory)
    (h : ∃ p, Pattern.ofText text = .ok p) : ∃ p, Pattern.ofText directory = .ok p := by
  obtain ⟨p, hp⟩ := h
  have hspells : Spells none (directory.toList ++ treeEnd) p.tokens :=
    toList_of_treeOf? hdirectory ▸ spells_of_ofText hp
  obtain ⟨tokens, htokens⟩ := hspells.of_append_treeEnd
  exact ⟨_, htokens.ofText_eq⟩

end Glob

/-! ### Sets of patterns -/

namespace IgnoreSet

/-- One pattern is read as it is on its own. -/
theorem readPattern_eq_ok_iff {text : String} {p : Glob.Pattern} :
    readPattern text = .ok p ↔ Glob.Pattern.ofText text = .ok p := by
  unfold readPattern
  cases Glob.Pattern.ofText text <;> simp

/-- One pattern fails as it does on its own. -/
theorem readPattern_eq_error_iff {text : String} {f : Fault} :
    readPattern text = .error f ↔
      ∃ e, Glob.Pattern.ofText text = .error e ∧ f = .ignorePattern text e := by
  unfold readPattern
  cases Glob.Pattern.ofText text <;> simp [eq_comm]

/-- The patterns of directories can be read if those that they come from can. -/
theorem exists_mapM_trees {texts : List String} {patterns : List Glob.Pattern}
    (h : texts.mapM readPattern = .ok patterns) :
    ∃ trees, (patterns.filterMap fun p => treeOf? p.text).mapM readPattern = .ok trees := by
  cases htrees : (patterns.filterMap fun p => treeOf? p.text).mapM readPattern with
  | ok trees => exact ⟨trees, rfl⟩
  | error f =>
    obtain ⟨before, directory, after, hsplit, -, hfailed⟩ := mapM_eq_error_iff.1 htrees
    obtain ⟨p, hp, hdirectory⟩ : ∃ p ∈ patterns, treeOf? p.text = some directory :=
      List.mem_filterMap.1 (by simp [hsplit])
    obtain ⟨text, -, htext⟩ := (of_mapM_eq_ok h).2 p hp
    rw [readPattern_eq_ok_iff] at htext
    rw [Glob.Pattern.text_of_ofText htext] at hdirectory
    obtain ⟨q, hq⟩ := Glob.Pattern.exists_ofText_of_treeOf? hdirectory ⟨p, htext⟩
    simp [readPattern_eq_ok_iff.2 hq] at hfailed

/-- The patterns that were given decide alone. -/
theorem ofTexts_eq_error_iff_mapM {texts : List String} {f : Fault} :
    ofTexts texts = .error f ↔ texts.mapM readPattern = .error f := by
  unfold ofTexts
  cases h : texts.mapM readPattern with
  | error g => simp [bind, Except.bind]
  | ok patterns =>
    obtain ⟨trees, htrees⟩ := exists_mapM_trees h
    simp [htrees, bind, Except.bind, pure, Except.pure]

/-- **A set of patterns fails with the first of them that is malformed**, and with nothing else. -/
theorem ofTexts_eq_error_iff {texts : List String} {f : Fault} :
    ofTexts texts = .error f ↔ ∃ before text after e, texts = before ++ text :: after ∧
      (∀ t ∈ before, ∃ p, Glob.Pattern.ofText t = .ok p) ∧
      Glob.Pattern.ofText text = .error e ∧ f = .ignorePattern text e := by
  rw [ofTexts_eq_error_iff_mapM, mapM_eq_error_iff]
  simp only [readPattern_eq_ok_iff, readPattern_eq_error_iff]
  constructor
  · rintro ⟨before, text, after, hsplit, hbefore, e, he, hf⟩
    exact ⟨before, text, after, e, hsplit, hbefore, he, hf⟩
  · rintro ⟨before, text, after, e, hsplit, hbefore, he, hf⟩
    exact ⟨before, text, after, hsplit, hbefore, e, he, hf⟩

/-- A set with a malformed pattern fails. -/
theorem exists_ofTexts_eq_error {texts : List String} {text : String} {e : Glob.PatternError}
    (hmem : text ∈ texts) (h : Glob.Pattern.ofText text = .error e) :
    ∃ f, ofTexts texts = .error f := by
  cases hpatterns : texts.mapM readPattern with
  | error f => exact ⟨f, ofTexts_eq_error_iff_mapM.2 hpatterns⟩
  | ok patterns =>
    obtain ⟨p, hp⟩ := (of_mapM_eq_ok hpatterns).1 text hmem
    simp [readPattern_eq_ok_iff, h] at hp

/-- Once the patterns that were given have been read, those of directories are read as well, and
there is a set of both. -/
theorem exists_ofTexts_eq_ok {texts : List String} {patterns : List Glob.Pattern}
    (h : texts.mapM readPattern = .ok patterns) :
    ∃ trees, (patterns.filterMap fun p => treeOf? p.text).mapM readPattern = .ok trees ∧
      ofTexts texts = .ok ⟨patterns, trees⟩ := by
  obtain ⟨trees, htrees⟩ := exists_mapM_trees h
  exact ⟨trees, htrees, by simp [ofTexts, h, htrees, bind, Except.bind, pure, Except.pure]⟩

/-- A set is made of the patterns that were given and of those of their directories. -/
theorem mapM_of_ofTexts_eq_ok {texts : List String} {s : IgnoreSet} (h : ofTexts texts = .ok s) :
    texts.mapM readPattern = .ok s.patterns ∧
      (s.patterns.filterMap fun p => treeOf? p.text).mapM readPattern = .ok s.trees := by
  cases hpatterns : texts.mapM readPattern with
  | error f => simp [ofTexts_eq_error_iff_mapM.2 hpatterns] at h
  | ok patterns =>
    obtain ⟨trees, htrees, hset⟩ := exists_ofTexts_eq_ok hpatterns
    obtain rfl : ⟨patterns, trees⟩ = s := Except.ok.inj (hset.symm.trans h)
    exact ⟨rfl, htrees⟩

/-- Each pattern of a set is read from its text. -/
theorem ofText_of_mem_patterns {texts : List String} {s : IgnoreSet} (h : ofTexts texts = .ok s)
    {p : Glob.Pattern} (hp : p ∈ s.patterns) : Glob.Pattern.ofText p.text = .ok p := by
  obtain ⟨text, -, htext⟩ := (of_mapM_eq_ok (mapM_of_ofTexts_eq_ok h).1).2 p hp
  rw [readPattern_eq_ok_iff] at htext
  rwa [Glob.Pattern.text_of_ofText htext]

/-- Each pattern of a directory is read from its text, which is what one that was given covers. -/
theorem ofText_of_mem_trees {texts : List String} {s : IgnoreSet} (h : ofTexts texts = .ok s)
    {q : Glob.Pattern} (hq : q ∈ s.trees) :
    Glob.Pattern.ofText q.text = .ok q ∧ ∃ p ∈ s.patterns, treeOf? p.text = some q.text := by
  obtain ⟨text, htext, hread⟩ := (of_mapM_eq_ok (mapM_of_ofTexts_eq_ok h).2).2 q hq
  rw [readPattern_eq_ok_iff] at hread
  rw [Glob.Pattern.text_of_ofText hread]
  exact ⟨hread, List.mem_filterMap.1 htext⟩

/-- **Only patterns that were given can be at fault.** Patterns make a set if and only if each of
them can be read on its own. If not, the fault is that of the first that cannot: its messages name
this pattern, and the place in it that is wrong. The second pass, over the patterns of directories,
never fails after the first one. -/
theorem exists_ofTexts_eq_ok_iff (texts : List String) :
    ((∃ s, ofTexts texts = .ok s) ↔ ∀ text ∈ texts, ∃ p, Glob.Pattern.ofText text = .ok p) ∧
    (∀ f, ofTexts texts = .error f ↔ ∃ before text after e, texts = before ++ text :: after ∧
      (∀ t ∈ before, ∃ p, Glob.Pattern.ofText t = .ok p) ∧
      Glob.Pattern.ofText text = .error e ∧ f = .ignorePattern text e ∧
      f.chain = ["Invalid ignore pattern: " ++ Text.quoted text,
        "Pattern syntax error near position " ++ toString e.position ++ ": " ++
          e.reason.message]) ∧
    ∀ patterns, texts.mapM readPattern = .ok patterns →
      ∃ trees, (patterns.filterMap fun p => treeOf? p.text).mapM readPattern = .ok trees ∧
        ofTexts texts = .ok ⟨patterns, trees⟩ := by
  refine ⟨⟨?_, ?_⟩, fun f => ?_, fun patterns => exists_ofTexts_eq_ok⟩
  · rintro ⟨s, hs⟩ text htext
    cases hp : Glob.Pattern.ofText text with
    | ok p => exact ⟨p, rfl⟩
    | error e =>
      obtain ⟨f, hf⟩ := exists_ofTexts_eq_error htext hp
      simp [hs] at hf
  · intro hall
    cases hs : ofTexts texts with
    | ok s => exact ⟨s, rfl⟩
    | error f =>
      -- a fault would be that of a pattern that cannot be read
      obtain ⟨before, text, after, e, hsplit, -, he, -⟩ := ofTexts_eq_error_iff.1 hs
      obtain ⟨p, hp⟩ := hall text (by simp [hsplit])
      simp [hp] at he
  · rw [ofTexts_eq_error_iff]
    constructor
    · rintro ⟨before, text, after, e, hsplit, hbefore, he, rfl⟩
      exact ⟨before, text, after, e, hsplit, hbefore, he, rfl, rfl⟩
    · rintro ⟨before, text, after, e, hsplit, hbefore, he, hf, -⟩
      exact ⟨before, text, after, e, hsplit, hbefore, he, hf⟩

/-- Of three patterns the second goes wrong at its first star, and so does the set of them; the
first one alone makes a set with the pattern of its directory. -/
theorem exists_ofTexts_eq_ok_iff_drafts :
    ofTexts ["drafts/**", "a**b", "["] = .error (.ignorePattern "a**b" ⟨0, .sharedComponent⟩) ∧
      ∃ trees, ["drafts"].mapM readPattern = .ok trees ∧
        ofTexts ["drafts/**"] =
          .ok ⟨[⟨"drafts/**", ("drafts/".toList.map .literal) ++ [.anyDepth]⟩], trees⟩ := by
  have hread : ["drafts/**"].mapM readPattern =
      .ok [⟨"drafts/**", ("drafts/".toList.map .literal) ++ [.anyDepth]⟩] := by
    decide +kernel
  obtain ⟨hall, -⟩ := of_mapM_eq_ok hread
  refine ⟨((exists_ofTexts_eq_ok_iff _).2.1 _).2 ⟨["drafts/**"], "a**b", ["["],
    ⟨0, .sharedComponent⟩, rfl, fun t ht => ?_, by decide +kernel, rfl, rfl⟩,
    (exists_ofTexts_eq_ok_iff ["drafts/**"]).2.2 _ hread⟩
  obtain ⟨p, hp⟩ := hall t ht
  exact ⟨p, readPattern_eq_ok_iff.1 hp⟩

end IgnoreSet

end FileRoutes
