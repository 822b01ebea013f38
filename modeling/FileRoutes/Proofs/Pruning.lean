import FileRoutes.Glob.Matching
import FileRoutes.Proofs.Patterns

/-!
# What a directory that is passed over hides

A directory may be passed over for the sake of a pattern that does not match the directory itself,
but everything below it. It is then left out unseen, so the pattern had better match whatever could
be found in it. That is so for a pattern whose tokens are those of the directory, a slash and a
double star: the directory is matched by the tokens before the slash, and whatever is below it, if
nothing there is hidden, by the double star (`matchTokens_append`). The one case to be careful with
is a double star that takes all of the rest of the directory, with tokens behind it that match the
empty text: it cannot go on past the slash, but then it did not have to take the last name either.

A slash and two stars after a double star that has taken a slash along are different. Such a pattern
wants a component without a name and matches nothing that can be found in a directory, while the
pattern of its directory matches every directory. The main result,
`IgnoreSet.ignoresFile_of_ignoresDirectory`, names these patterns as the only ones that hide what
they do not match.
-/

namespace FileRoutes.Glob

/-- Whether a component opens after a text, where `opening` says whether one opens before it. -/
def opensAfter : (opening : Bool) → List Char → Bool
  | opening, [] => opening
  | _, c :: rest => opensAfter (c = '/') rest

/-- No component opens after a text with a last character that is no slash. -/
theorem opensAfter_eq_false {text : List Char} (opening : Bool) (hne : text ≠ [])
    (hlast : text.getLast? ≠ some '/') : opensAfter opening text = false := by
  induction text generalizing opening with
  | nil => exact absurd rfl hne
  | cons c rest ih =>
    cases rest with
    | nil => simpa [opensAfter] using hlast
    | cons d rest => exact ih (decide (c = '/')) (by simp) (by simpa using hlast)

/-- Where a component opens after a text, there is no text, or it ends in a slash. -/
theorem eq_nil_or_concat_of_opensAfter {text : List Char} {opening : Bool}
    (h : opensAfter opening text = true) : text = [] ∨ ∃ front, text = front ++ ['/'] := by
  rcases List.eq_nil_or_concat text with rfl | ⟨front, c, rfl⟩
  · exact .inl rfl
  · obtain rfl : c = '/' := by
      by_contra hc
      rw [opensAfter_eq_false opening (by simp) (by simpa using hc)] at h
      exact Bool.noConfusion h
    exact .inr ⟨front, List.concat_eq_append⟩

/-- A text and more are gone through one after the other. -/
theorem opensAfter_append (opening : Bool) (text more : List Char) :
    opensAfter opening (text ++ more) = opensAfter (opensAfter opening text) more := by
  induction text generalizing opening with
  | nil => rfl
  | cons c text ih => exact ih (decide (c = '/'))

/-- No component opens after a character that a wildcard stands for. -/
private theorem isSlash_of_isWild {opening : Bool} {c : Char} (h : isWild opening c = true) :
    decide (c = '/') = false := by
  simp only [isWild, Bool.and_eq_true, decide_eq_true_eq] at h
  exact decide_eq_false h.1

/-! ### What one token stands for -/

variable {next more : Bool → List Char → Bool} {opening : Bool} {text rest : List Char}

private theorem charThen_mono {p : Char → Bool}
    (hnext : ∀ opening text, next opening text = true → more opening text = true)
    (h : charThen p next text = true) : charThen p more text = true := by
  cases text with
  | nil => exact h
  | cons c text =>
    obtain ⟨hp, h⟩ := Bool.and_eq_true_iff.1 h
    exact Bool.and_eq_true_iff.2 ⟨hp, hnext _ _ h⟩

private theorem runThen_mono
    (hnext : ∀ opening text, next opening text = true → more opening text = true)
    (h : runThen next opening text = true) : runThen more opening text = true := by
  induction text generalizing opening with
  | nil => exact hnext opening [] h
  | cons c text ih =>
    simp only [runThen, Bool.or_eq_true, Bool.and_eq_true] at h ⊢
    exact h.imp (hnext opening _) (And.imp_right ih)

private theorem depthThen_mono
    (hnext : ∀ opening text, next opening text = true → more opening text = true)
    (h : depthThen next opening text = true) : depthThen more opening text = true := by
  induction text generalizing opening with
  | nil => exact hnext opening [] h
  | cons c text ih =>
    simp only [depthThen, Bool.or_eq_true, Bool.and_eq_true] at h ⊢
    exact h.imp (And.imp_right (hnext opening _)) (And.imp_right ih)

private theorem exists_of_charThen {p : Char → Bool} (h : charThen p next text = true) :
    ∃ front rest, text = front ++ rest ∧ next (opensAfter opening front) rest = true := by
  cases text with
  | nil => simp [charThen] at h
  | cons c text => exact ⟨[c], text, rfl, (Bool.and_eq_true_iff.1 h).2⟩

private theorem exists_of_runThen (h : runThen next opening text = true) :
    ∃ front rest, text = front ++ rest ∧ next (opensAfter opening front) rest = true := by
  induction text generalizing opening with
  | nil => exact ⟨[], [], rfl, h⟩
  | cons c text ih =>
    rcases Bool.or_eq_true_iff.1 h with h | h
    · exact ⟨[], c :: text, rfl, h⟩
    · obtain ⟨hwild, h⟩ := Bool.and_eq_true_iff.1 h
      obtain ⟨front, rest, rfl, h⟩ := ih h
      exact ⟨c :: front, rest, rfl, by rwa [opensAfter, isSlash_of_isWild hwild]⟩

/-- A double star stops at the end of the text, or where a component opens. -/
private theorem exists_of_depthThen (h : depthThen next opening text = true) :
    ∃ front rest, text = front ++ rest ∧ next (opensAfter opening front) rest = true ∧
      (rest ≠ [] → opensAfter opening front = true) := by
  induction text generalizing opening with
  | nil => exact ⟨[], [], rfl, h, by simp⟩
  | cons c text ih =>
    rcases Bool.or_eq_true_iff.1 h with h | h
    · obtain ⟨rfl, h⟩ := Bool.and_eq_true_iff.1 h
      exact ⟨[], c :: text, rfl, h, fun _ => rfl⟩
    · obtain ⟨front, rest, rfl, hrest, hopens⟩ := ih (Bool.and_eq_true_iff.1 h).2
      exact ⟨c :: front, rest, rfl, hrest, hopens⟩

/-! ### Going on with more text -/

private theorem runThen_of_next (h : next opening text = true) :
    runThen next opening text = true := by
  cases text <;> simp_all [runThen]

private theorem depthThen_of_next (h : next true text = true) :
    depthThen next true text = true := by
  cases text <;> simp_all [depthThen]

/-- One character goes on with more text if what follows it does. -/
private theorem charThen_append {p : Char → Bool}
    (hnext : ∀ c text, p c = true → opensAfter (c = '/') text = false →
      next (c = '/') text = true → more (c = '/') (text ++ rest) = true)
    (hafter : opensAfter opening text = false) (h : charThen p next text = true) :
    charThen p more (text ++ rest) = true := by
  cases text with
  | nil => simp [charThen] at h
  | cons c text =>
    obtain ⟨hp, h⟩ := Bool.and_eq_true_iff.1 h
    exact Bool.and_eq_true_iff.2 ⟨hp, hnext c text hp hafter h⟩

/-- A run inside one component goes on with more text if what follows it does. -/
private theorem runThen_append
    (hnext : ∀ opening text, opensAfter opening text = false → next opening text = true →
      more opening (text ++ rest) = true)
    (hafter : opensAfter opening text = false) (h : runThen next opening text = true) :
    runThen more opening (text ++ rest) = true := by
  induction text generalizing opening with
  | nil => exact runThen_of_next (hnext opening [] hafter h)
  | cons c text ih =>
    rcases Bool.or_eq_true_iff.1 h with h | h
    · exact runThen_of_next (hnext opening _ hafter h)
    · obtain ⟨hwild, h⟩ := Bool.and_eq_true_iff.1 h
      have hafter : opensAfter false text = false := isSlash_of_isWild hwild ▸ hafter
      simp [runThen, hwild, ih hafter h]

/-- A run of whole components goes on with more text if what follows it does, or it takes the rest
of the last component, and what follows it matches the empty text. -/
private theorem depthThen_append
    (hnext : ∀ text, opensAfter true text = false → next true text = true →
      more true (text ++ rest) = true)
    (hname : ∀ name, '/' ∉ name → name.head? ≠ some '.' → next false [] = true →
      next true name = true)
    (hafter : opensAfter opening text = false) (h : depthThen next opening text = true) :
    depthThen more opening (text ++ rest) = true ∨
      opening = false ∧ '/' ∉ text ∧ next false [] = true := by
  induction text generalizing opening with
  | nil =>
    obtain rfl : opening = false := hafter
    exact .inr ⟨rfl, by simp, h⟩
  | cons c text ih =>
    rcases Bool.or_eq_true_iff.1 h with h | h
    · obtain ⟨rfl, h⟩ := Bool.and_eq_true_iff.1 h
      exact .inl (depthThen_of_next (hnext _ hafter h))
    · obtain ⟨hshown, h⟩ := Bool.and_eq_true_iff.1 h
      rcases ih hafter h with h | ⟨hc, hslash, hend⟩
      · simp [depthThen, hshown, h]
      · have hslash : '/' ∉ c :: text := by
          simpa [eq_comm] using And.intro (of_decide_eq_false hc) hslash
        cases opening with
        | false => exact .inr ⟨rfl, hslash, hend⟩
        | true =>
          -- the run may stop before this component instead, for what follows to take it
          have hdot : (c :: text).head? ≠ some '.' := by simpa using hshown
          exact .inl (depthThen_of_next (hnext _ hafter (hname _ hslash hdot hend)))

/-- What matches the empty text without a double star at its end is stars, and matches a name. -/
private theorem matchTokens_name {tokens : List Token} (hne : tokens ≠ [])
    (hlast : tokens.getLast? ≠ some .anyDepth) {name : List Char} (hslash : '/' ∉ name)
    (hdot : name.head? ≠ some '.') (h : matchTokens tokens false [] = true) :
    matchTokens tokens true name = true := by
  have hrun : ∀ opening name, '/' ∉ name → (opening = true → name.head? ≠ some '.') →
      runThen (matchTokens []) opening name = true := by
    intro opening name hslash hdot
    induction name generalizing opening with
    | nil => rfl
    | cons c name ih =>
      have hwild : isWild opening c = true := by
        have hc : c ≠ '/' := fun hc => hslash (by simp [hc])
        cases opening <;> simp_all [isWild]
      simp [runThen, hwild, ih false (fun hs => hslash (by simp [hs])) (by simp)]
  induction tokens with
  | nil => exact absurd rfl hne
  | cons token tokens ih =>
    have hrest : tokens ≠ [] → matchTokens tokens false [] = true →
        matchTokens tokens true name = true := by
      intro hne h
      obtain ⟨other, others, rfl⟩ := List.exists_cons_of_ne_nil hne
      exact ih (by simp) (by simpa using hlast) h
    cases token with
    | anyRun =>
      by_cases hnil : tokens = []
      · subst hnil
        exact hrun true name hslash fun _ => hdot
      · exact runThen_of_next (hrest hnil h)
    | anyDepth => exact depthThen_of_next (hrest (by rintro rfl; simp at hlast) h)
    | _ => simp [matchTokens, charThen] at h

/-- **Tokens that match a text go on to match more**, if none of them is a double star that would
have to end inside a component: neither does the text end where a component opens, nor do the tokens
end in a double star. -/
theorem matchTokens_append {tokens others : List Token} {opens : Bool}
    (hdeep : DeepOpens opens tokens) (hopens : opens = true → opening = true)
    (hlast : tokens.getLast? ≠ some .anyDepth) (hafter : opensAfter opening text = false)
    (hothers : ∀ opening, matchTokens others opening rest = true)
    (h : matchTokens tokens opening text = true) :
    matchTokens (tokens ++ others) opening (text ++ rest) = true := by
  induction tokens generalizing opens opening text with
  | nil =>
    obtain rfl : text = [] := List.isEmpty_iff.1 h
    exact hothers opening
  | cons token tokens ih =>
    have hlast' : tokens.getLast? ≠ some .anyDepth := by
      cases tokens with
      | nil => simp
      | cons other others => simpa using hlast
    -- after anything but a slash or a double star no double star has to stand
    have hinside : DeepOpens false tokens → ∀ opening text, opensAfter opening text = false →
        matchTokens tokens opening text = true →
        matchTokens (tokens ++ others) opening (text ++ rest) = true :=
      fun hdeep _ _ hafter h => ih hdeep (by simp) hlast' hafter h
    cases token with
    | literal d =>
      refine charThen_append (fun c text hc hafter hrest => ?_) hafter h
      obtain rfl : c = d := by simpa using hc
      exact ih hdeep id hlast' hafter hrest
    | anyChar => exact charThen_append (fun _ _ _ => hinside hdeep _ _) hafter h
    | within items => exact charThen_append (fun _ _ _ => hinside hdeep _ _) hafter h
    | outside items => exact charThen_append (fun _ _ _ => hinside hdeep _ _) hafter h
    | anyRun => exact runThen_append (hinside hdeep) hafter h
    | anyDepth =>
      obtain rfl : opening = true := hopens hdeep.1
      have hne : tokens ≠ [] := by
        rintro rfl
        simp at hlast
      exact (depthThen_append (fun _ => ih hdeep.2 id hlast')
        (fun _ => matchTokens_name hne hlast') hafter h).resolve_right (by simp)

/-! ### More tokens and the same text -/

/-- Tokens that match a text match it as well with others after them that match the empty text. -/
theorem matchTokens_append_of_nil {tokens others : List Token}
    (hothers : ∀ opening, matchTokens others opening [] = true)
    (h : matchTokens tokens opening text = true) :
    matchTokens (tokens ++ others) opening text = true := by
  induction tokens generalizing opening text with
  | nil =>
    obtain rfl : text = [] := List.isEmpty_iff.1 h
    exact hothers opening
  | cons token tokens ih =>
    cases token with
    | anyRun => exact runThen_mono (fun _ _ => ih) h
    | anyDepth => exact depthThen_mono (fun _ _ => ih) h
    | _ => exact charThen_mono (fun _ _ => ih) h

/-- What tokens match in front of others is followed by what these match. -/
theorem exists_of_matchTokens_append {tokens others : List Token}
    (h : matchTokens (tokens ++ others) opening text = true) :
    ∃ front rest, text = front ++ rest ∧
      matchTokens others (opensAfter opening front) rest = true := by
  induction tokens generalizing opening text with
  | nil => exact ⟨[], text, rfl, h⟩
  | cons token tokens ih =>
    -- what the first token stands for comes before what the others match
    have hfirst : (∃ front rest, text = front ++ rest ∧
        matchTokens (tokens ++ others) (opensAfter opening front) rest = true) →
        ∃ front rest, text = front ++ rest ∧
          matchTokens others (opensAfter opening front) rest = true := by
      rintro ⟨front, between, rfl, hbetween⟩
      obtain ⟨more, rest, rfl, hrest⟩ := ih hbetween
      exact ⟨front ++ more, rest, by simp, by rwa [opensAfter_append]⟩
    cases token with
    | anyRun => exact hfirst (exists_of_runThen h)
    | anyDepth =>
      obtain ⟨front, rest, htext, hrest, -⟩ := exists_of_depthThen h
      exact hfirst ⟨front, rest, htext, hrest⟩
    | _ => exact hfirst (exists_of_charThen h)

/-! ### Patterns for everything below a directory -/

/-- A double star matches a text in which no dot opens a component. -/
private theorem depthThen_nil
    (h : ∀ front rest, text = front ++ '.' :: rest → opensAfter opening front = false) :
    depthThen (matchTokens []) opening text = true := by
  induction text generalizing opening with
  | nil => rfl
  | cons c text ih =>
    have hshown : (opening && decide (c = '.')) = false := by
      by_cases hc : c = '.'
      · have hopening : opening = false := h [] text (by rw [hc]; rfl)
        simp [hopening]
      · simp [hc]
    have hrest : depthThen (matchTokens []) (decide (c = '/')) text = true :=
      ih fun front rest htext => h (c :: front) rest (by rw [htext]; rfl)
    simp [depthThen, hshown, hrest]

/-- A dot that opens a component is the first character of its name. -/
private theorem exists_mem_splitOn_of_opensAfter {front : List Char}
    (h : opensAfter true front = true) (rest : List Char) :
    ∃ name ∈ (front ++ '.' :: rest).splitOn '/', name.head? = some '.' := by
  obtain ⟨name, hname, hdot⟩ : ∃ name ∈ ('.' :: rest).splitOn '/', name.head? = some '.' := by
    rw [List.splitOn_cons_eq_if_modifyHead]
    cases hrest : rest.splitOn '/' with
    | nil => exact absurd hrest (List.splitOn_ne_nil '/' rest)
    | cons first others => simp
  rcases eq_nil_or_concat_of_opensAfter h with rfl | ⟨front, rfl⟩
  · exact ⟨name, hname, hdot⟩
  · refine ⟨name, ?_, hdot⟩
    rw [List.append_assoc, List.singleton_append, List.splitOn_append_cons_self]
    exact List.mem_append_right _ hname

/-- A double star and a slash match only where a component has no name. -/
private theorem nil_mem_splitOn_of_matchTokens {tokens others : List Token}
    (h : matchTokens (tokens ++ .anyDepth :: .literal '/' :: others) opening text = true) :
    [] ∈ text.splitOn '/' := by
  obtain ⟨front, between, rfl, hbetween⟩ := exists_of_matchTokens_append h
  obtain ⟨names, rest, rfl, hslash, hopens⟩ := exists_of_depthThen hbetween
  cases rest with
  | nil => simp [matchTokens, charThen] at hslash
  | cons c rest =>
    obtain rfl : c = '/' := by simpa using (Bool.and_eq_true_iff.1 hslash).1
    rw [← List.append_assoc, List.splitOn_append_cons_self]
    refine List.mem_append_left _ ?_
    have hopens := (opensAfter_append opening front names).trans (hopens (by simp))
    rcases eq_nil_or_concat_of_opensAfter hopens with heq | ⟨more, heq⟩ <;>
      simp [heq, List.splitOn_append_cons_self]

/-- **What is below a directory is matched with it**: if the pattern of a directory matches it, then
the pattern for everything below it matches the directory, or all that is below it and not hidden,
or it ends in two slashes between double stars. -/
theorem Pattern.accepts_below {p q : Pattern} {directory below : String}
    (hp : Pattern.ofText p.text = .ok p) (hq : Pattern.ofText q.text = .ok q)
    (htree : IgnoreSet.treeOf? p.text = some q.text) (hne : directory ≠ "")
    (hslash : directory.toList.getLast? ≠ some '/')
    (hbelow : ∀ name ∈ below.toList.splitOn '/', name.head? ≠ some '.')
    (haccepts : q.accepts directory = true) :
    p.accepts directory = true ∨ p.accepts (directory ++ "/" ++ below) = true ∨
      deepSlash ++ treeEnd <:+ p.text.toList := by
  have htext := toList_of_treeOf? htree
  have hspells := htext ▸ spells_of_ofText hp
  rcases (spells_of_ofText hq).append_treeEnd with htokens | ⟨htokens, hlast⟩
  · -- the end only repeats the double star before it
    left
    rw [accepts, hspells.unique htokens]
    exact matchTokens_append_of_nil (fun _ => rfl) haccepts
  · by_cases hdeep : q.tokens.getLast? = some .anyDepth
    · obtain ⟨front, hfront⟩ := hlast hdeep
      exact .inr (.inr ⟨front, by rw [htext, ← hfront, List.append_assoc]⟩)
    · have hafter : opensAfter true directory.toList = false :=
        opensAfter_eq_false true (fun hnil => hne (String.toList_inj.1 hnil)) hslash
      have hshown : depthThen (matchTokens []) true below.toList = true := by
        refine depthThen_nil fun front rest hrest => Bool.eq_false_iff.2 fun hopens => ?_
        obtain ⟨name, hname, hdot⟩ := exists_mem_splitOn_of_opensAfter hopens rest
        exact hbelow name (hrest ▸ hname) hdot
      have hrest : ∀ opening, matchTokens [.literal '/', .anyDepth] opening
          ('/' :: below.toList) = true := fun _ => hshown
      have hjoined : (directory ++ "/" ++ below).toList =
          directory.toList ++ '/' :: below.toList := by simp
      right
      left
      rw [accepts, hspells.unique htokens, hjoined]
      exact matchTokens_append (spells_of_ofText hq).deepOpens (fun _ => rfl) hdeep hafter hrest
        haccepts

/-- A pattern that ends in two slashes between double stars matches no path whose components all
have names. -/
theorem Pattern.accepts_eq_false {p : Pattern} {path : String}
    (hp : Pattern.ofText p.text = .ok p) (hend : deepSlash ++ treeEnd <:+ p.text.toList)
    (hpath : [] ∉ path.toList.splitOn '/') : p.accepts path = false := by
  obtain ⟨front, hfront⟩ := (spells_of_ofText hp).exists_eq_append hend
  refine Bool.eq_false_iff.2 fun haccepts => hpath ?_
  rw [accepts, hfront] at haccepts
  exact nil_mem_splitOn_of_matchTokens haccepts

end FileRoutes.Glob

/-! ### Directories that are passed over -/

namespace FileRoutes.IgnoreSet

open Glob

/-- The pattern covers everything below the directory: that of the directory itself matches. -/
def Covers (s : IgnoreSet) (p : Pattern) (directory : String) : Prop :=
  ∃ q ∈ s.trees, treeOf? p.text = some q.text ∧ q.accepts directory = true

/-- **Passing over a directory hides what the patterns match**, but for patterns that end in two
slashes between double stars. A directory that is passed over, while it would not be as a file, is
covered by some pattern. If one that covers it has another end, then all that is below the
directory and not hidden is passed over on its own. A pattern with that end, however, matches no
path at all whose components have names: what it alone covers is not passed over on its own. -/
theorem ignoresFile_of_ignoresDirectory {texts : List String} {s : IgnoreSet}
    (h : ofTexts texts = .ok s) :
    (∀ directory : String, directory ≠ "" → directory.toList.getLast? ≠ some '/' →
      s.ignoresDirectory directory = true → s.ignoresFile directory = false →
      (∃ p ∈ s.patterns, s.Covers p directory) ∧
      ∀ p ∈ s.patterns, s.Covers p directory → ¬ "**//**".toList <:+ p.text.toList →
        ∀ below : String,
          (∀ name ∈ below.toList.splitOn '/', name ≠ [] ∧ name.head? ≠ some '.') →
          s.ignoresFile (directory ++ "/" ++ below) = true) ∧
    ∀ p ∈ s.patterns, "**//**".toList <:+ p.text.toList →
      ∀ path : String, [] ∉ path.toList.splitOn '/' → p.accepts path = false := by
  have hend : "**//**".toList = deepSlash ++ treeEnd := by decide
  rw [hend]
  refine ⟨fun directory hne hslash hdirectory hfile =>
    ⟨?_, fun p hp hcovers hother below hbelow => ?_⟩, fun p hp hends path hpath => ?_⟩
  · obtain ⟨q, hq, haccepts⟩ : ∃ q ∈ s.trees, q.accepts directory = true := by
      simpa [ignoresDirectory, hfile] using hdirectory
    obtain ⟨-, p, hp, htree⟩ := ofText_of_mem_trees h hq
    exact ⟨p, hp, q, hq, htree, haccepts⟩
  · obtain ⟨q, hq, htree, haccepts⟩ := hcovers
    have hmatched := Pattern.accepts_below (ofText_of_mem_patterns h hp)
      (ofText_of_mem_trees h hq).1 htree hne hslash (fun name hname => (hbelow name hname).2)
      haccepts
    have hnot : p.accepts directory ≠ true := fun haccepts => by
      have hignored : s.ignoresFile directory = true := List.any_eq_true.2 ⟨p, hp, haccepts⟩
      simp [hfile] at hignored
    exact List.any_eq_true.2 ⟨p, hp, (hmatched.resolve_left hnot).resolve_right hother⟩
  · exact Pattern.accepts_eq_false (ofText_of_mem_patterns h hp) hends hpath

/-- A directory of drafts is passed over, and what is below it would be on its own. -/
theorem ignoresFile_of_ignoresDirectory_drafts : ∃ s, ofTexts ["routes/drafts/**"] = .ok s ∧
    s.ignoresDirectory "routes/drafts" = true ∧ s.ignoresFile "routes/drafts" = false ∧
    s.ignoresFile ("routes/drafts" ++ "/" ++ "a/page.tsx") = true := by
  obtain ⟨s, hs, hset⟩ : ∃ s, ofTexts ["routes/drafts/**"] = .ok s ∧
      s = ⟨[⟨"routes/drafts/**", "routes/drafts/".toList.map .literal ++ [.anyDepth]⟩],
        [⟨"routes/drafts", "routes/drafts".toList.map .literal⟩]⟩ :=
    ⟨_, by decide +kernel, rfl⟩
  have hdirectory : s.ignoresDirectory "routes/drafts" = true := by
    rw [hset]
    decide +kernel
  have hfile : s.ignoresFile "routes/drafts" = false := by
    rw [hset]
    decide +kernel
  obtain ⟨⟨p, hp, hcovers⟩, hbelow⟩ := (ignoresFile_of_ignoresDirectory hs).1 "routes/drafts"
    (by decide) (by decide) hdirectory hfile
  have hends : ¬ "**//**".toList <:+ p.text.toList := by
    obtain rfl : p = ⟨"routes/drafts/**", "routes/drafts/".toList.map .literal ++ [.anyDepth]⟩ := by
      simpa [hset] using hp
    decide
  exact ⟨s, hs, hdirectory, hfile, hbelow p hp hcovers hends "a/page.tsx" (by decide)⟩

/-- A pattern with two slashes between double stars has every directory passed over, and matches
nothing below it. -/
theorem ignoresDirectory_of_two_slashes : ∃ s, ofTexts ["**//**"] = .ok s ∧
    s.ignoresDirectory "ab" = true ∧ s.ignoresFile "ab" = false ∧
    s.ignoresFile ("ab" ++ "/" ++ "r") = false :=
  ⟨⟨[⟨"**//**", [.anyDepth, .literal '/', .anyDepth]⟩], [⟨"**/", [.anyDepth]⟩]⟩, by decide +kernel⟩

end FileRoutes.IgnoreSet
