import FileRoutes.Glob.Pattern
import Mathlib.Data.List.Basic

/-!
# What the text of a pattern spells

A pattern is read from left to right by two functions that hand over to each other, one for what
stands inside a class. Both carry positions along, for errors only. What they accept is said here
without them: **spelling** relates a text to its tokens, with one rule for each token, and a class
is taken in one go.

A text spells the tokens that are read from it, and no others (`readTokens_eq_ok_iff`). So what is
to be known about the tokens of all patterns is shown rule by rule: double stars stand only where a
component opens (`Spells.deepOpens`); what the end of a pattern for everything below a directory
adds to the tokens of the directory (`Spells.append_treeEnd`); and that without this end the text
still spells something (`Spells.of_append_treeEnd`).
-/

namespace FileRoutes.Glob

/-- The text spells these tokens where it stands after the character `before`. -/
inductive Spells : (before : Option Char) → (text : List Char) → (tokens : List Token) → Prop
  | nil (before : Option Char) : Spells before [] []
  | literal {before : Option Char} {c : Char} {rest : List Char} {tokens : List Token}
    (hplain : c ≠ '?' ∧ c ≠ '*' ∧ c ≠ '[') (h : Spells (some c) rest tokens) :
    Spells before (c :: rest) (.literal c :: tokens)
  | anyChar {before : Option Char} {rest : List Char} {tokens : List Token}
    (h : Spells (some '?') rest tokens) : Spells before ('?' :: rest) (.anyChar :: tokens)
  | anyRun {before : Option Char} {rest : List Char} {tokens : List Token}
    (hsingle : rest.head? ≠ some '*') (h : Spells (some '*') rest tokens) :
    Spells before ('*' :: rest) (.anyRun :: tokens)
  /-- A double star with the slash after it. -/
  | anyDepth {before : Option Char} {rest : List Char} {tokens : List Token}
    (hopens : opensComponent before = true) (h : Spells (some '/') rest tokens) :
    Spells before ('*' :: '*' :: '/' :: rest) (.anyDepth :: tokens)
  /-- A double star at the end. -/
  | lastDepth {before : Option Char} (hopens : opensComponent before = true) :
    Spells before ['*', '*'] [.anyDepth]
  /-- A class up to the first bracket that can close it. -/
  | within {before : Option Char} {first : Char} {inside rest : List Char} {tokens : List Token}
    (hfirst : first ≠ '!') (hinside : ']' ∉ inside) (h : Spells (some ']') rest tokens) :
    Spells before ('[' :: first :: (inside ++ ']' :: rest))
      (.within (classItems (first :: inside)) :: tokens)
  | outside {before : Option Char} {first : Char} {inside rest : List Char} {tokens : List Token}
    (hinside : ']' ∉ inside) (h : Spells (some ']') rest tokens) :
    Spells before ('[' :: '!' :: first :: (inside ++ ']' :: rest))
      (.outside (classItems (first :: inside)) :: tokens)

private theorem map_eq_ok_iff {ε α β : Type} {f : α → β} {x : Except ε α} {b : β} :
    f <$> x = .ok b ↔ ∃ a, x = .ok a ∧ f a = b := by
  cases x <;> simp [Functor.map, Except.map]

/-- What is read as the rest of a pattern is spelled by it, and what is read inside a class is
spelled by what stands after the class. -/
private theorem spells_of_read :
    (∀ position before text, ∀ tokens, readTokens position before text = .ok tokens →
      Spells before text tokens) ∧
    ∀ opened position negated inside text, ∀ tokens,
      readClass opened position negated inside text = .ok tokens →
      ∃ more rest others, text = more ++ ']' :: rest ∧ ']' ∉ more ∧
        tokens = (if negated then .outside (classItems (inside.reverse ++ more))
          else .within (classItems (inside.reverse ++ more))) :: others ∧
        Spells (some ']') rest others := by
  apply readTokens.mutual_induct
    (fun position before text => ∀ tokens, readTokens position before text = .ok tokens →
      Spells before text tokens)
    (fun opened position negated inside text => ∀ tokens,
      readClass opened position negated inside text = .ok tokens →
      ∃ more rest others, text = more ++ ']' :: rest ∧ ']' ∉ more ∧
        tokens = (if negated then .outside (classItems (inside.reverse ++ more))
          else .within (classItems (inside.reverse ++ more))) :: others ∧
        Spells (some ']') rest others)
  case case2 =>
    intro position before rest ih tokens h
    simp only [readTokens, map_eq_ok_iff] at h
    obtain ⟨others, hothers, rfl⟩ := h
    exact .anyChar (ih others hothers)
  case case4 =>
    intro position before rest hopens ih tokens h
    simp only [readTokens, hopens, if_true, map_eq_ok_iff] at h
    obtain ⟨others, hothers, rfl⟩ := h
    exact .anyDepth hopens (ih others hothers)
  case case7 =>
    intro position before rest hstar hslash hopens hend tokens h
    obtain rfl := List.isEmpty_iff.1 hend
    obtain rfl : [.anyDepth] = tokens := by simpa [readTokens, hopens] using h
    exact .lastDepth (by simpa using hopens)
  case case9 =>
    intro position before rest htwo hdeep hone ih tokens h
    have hsingle : rest.head? ≠ some '*' := by
      cases rest <;> simp_all
    simp only [readTokens, map_eq_ok_iff] at h
    obtain ⟨others, hothers, rfl⟩ := h
    exact .anyRun hsingle (ih others hothers)
  case case10 =>
    intro position before first rest ih tokens h
    obtain ⟨inside, rest, others, rfl, hinside, rfl, hrest⟩ := ih tokens h
    exact .outside hinside hrest
  case case12 =>
    intro position before first rest hmark hfirst ih tokens h
    simp only [readTokens, hfirst, if_false] at h
    obtain ⟨inside, rest, others, rfl, hinside, rfl, hrest⟩ := ih tokens h
    exact .within hfirst hinside hrest
  case case14 =>
    intro position before c rest hquestion _ _ _ hstar _ hclass hopened ih tokens h
    have hbracket : c ≠ '[' := by
      rintro rfl
      cases rest <;> simp_all
    simp only [readTokens, map_eq_ok_iff] at h
    obtain ⟨others, hothers, rfl⟩ := h
    exact .literal ⟨hquestion, hstar, hbracket⟩ (ih others hothers)
  case case16 =>
    intro opened position negated inside rest ih tokens h
    simp only [readClass, map_eq_ok_iff] at h
    obtain ⟨others, hothers, rfl⟩ := h
    exact ⟨[], rest, others, rfl, by simp, by simp, ih others hothers⟩
  case case17 =>
    intro opened position negated inside c rest hc ih tokens h
    simp only [readClass] at h
    obtain ⟨more, rest, others, rfl, hmore, rfl, hrest⟩ := ih tokens h
    refine ⟨c :: more, rest, others, rfl, ?_, by simp, hrest⟩
    simpa [eq_comm] using ⟨hc, hmore⟩
  -- what is left cannot be read, or is at its end
  all_goals
    intros
    simp_all [readTokens, readClass, Spells.nil]

/-- A class ends at the first bracket that can close it, and what is inside are its items. -/
private theorem readClass_append {inside more : List Char} (hmore : ']' ∉ more)
    (opened position : Nat) (negated : Bool) (rest : List Char) :
    readClass opened position negated inside (more ++ ']' :: rest) =
      ((if negated then .outside (classItems (inside.reverse ++ more))
        else .within (classItems (inside.reverse ++ more))) :: ·) <$>
        readTokens (position + more.length + 1) (some ']') rest := by
  induction more generalizing inside position with
  | nil => simp [readClass]
  | cons c more ih =>
    obtain ⟨hc, hmore⟩ : c ≠ ']' ∧ ']' ∉ more := by simpa [eq_comm] using hmore
    have hposition : position + 1 + more.length + 1 = position + (c :: more).length + 1 := by
      rw [List.length_cons]
      omega
    rw [List.cons_append, readClass, ih hmore, hposition]
    · simp
    · exact hc

/-- What a text spells is read from it. -/
theorem Spells.readTokens_eq {before : Option Char} {text : List Char} {tokens : List Token}
    (h : Spells before text tokens) (position : Nat) :
    readTokens position before text = .ok tokens := by
  induction h generalizing position with
  | nil before => simp [readTokens]
  | literal hplain _ ih =>
    obtain ⟨hquestion, hstar, hbracket⟩ := hplain
    rw [readTokens, ih]
    · rfl
    all_goals simp_all
  | anyChar _ ih => rw [readTokens, ih]; rfl
  | @anyRun before rest tokens hsingle _ ih =>
    rw [readTokens, ih]
    · rfl
    all_goals
      rintro _ rfl
      simp at hsingle
  | anyDepth hopens _ ih => rw [readTokens, if_pos hopens, ih]; rfl
  | lastDepth hopens => simp [readTokens, hopens]
  | within hfirst hinside _ ih =>
    rw [readTokens, if_neg hfirst, readClass_append hinside, ih]
    · rfl
    · simp_all
  | outside hinside _ ih =>
    rw [readTokens, readClass_append hinside, ih]
    rfl

/-- **The tokens that are read from a text are those that it spells.** -/
theorem readTokens_eq_ok_iff {position : Nat} {before : Option Char} {text : List Char}
    {tokens : List Token} :
    readTokens position before text = .ok tokens ↔ Spells before text tokens :=
  ⟨spells_of_read.1 position before text tokens, fun h => h.readTokens_eq position⟩

/-- A text spells one list of tokens at most. -/
theorem Spells.unique {before : Option Char} {text : List Char} {tokens others : List Token}
    (h : Spells before text tokens) (k : Spells before text others) : tokens = others :=
  Except.ok.inj ((h.readTokens_eq 0).symm.trans (k.readTokens_eq 0))

/-- A pattern is read as what its text spells. -/
theorem Pattern.spells_of_ofText {text : String} {p : Pattern} (h : Pattern.ofText text = .ok p) :
    Spells none text.toList p.tokens := by
  obtain ⟨tokens, hread, rfl⟩ := map_eq_ok_iff.1 h
  exact readTokens_eq_ok_iff.1 hread

/-- A text that spells something is read as a pattern. -/
theorem Spells.ofText_eq {text : String} {tokens : List Token}
    (h : Spells none text.toList tokens) : Pattern.ofText text = .ok ⟨text, tokens⟩ := by
  rw [Pattern.ofText, h.readTokens_eq]
  rfl

/-! ### Where double stars stand -/

/-- Double stars stand only where a component opens, and one opens at first if `opens` says so. -/
def DeepOpens : (opens : Bool) → List Token → Prop
  | _, [] => True
  | opens, .anyDepth :: rest => opens = true ∧ DeepOpens true rest
  | _, .literal c :: rest => DeepOpens (c = '/') rest
  | _, _ :: rest => DeepOpens false rest

/-- In the tokens of a pattern double stars stand only where a component opens. -/
theorem Spells.deepOpens {before : Option Char} {text : List Char} {tokens : List Token}
    (h : Spells before text tokens) : DeepOpens (opensComponent before) tokens := by
  induction h with
  | nil before => trivial
  | @literal _ c _ _ _ _ ih =>
    have hopens : opensComponent (some c) = decide (c = '/') := by simp [opensComponent]
    rwa [DeepOpens, ← hopens]
  | anyChar _ ih => exact ih
  | anyRun _ _ ih => exact ih
  | anyDepth hopens _ ih => exact ⟨hopens, ih⟩
  | lastDepth hopens => exact ⟨hopens, trivial⟩
  | within _ _ _ ih => exact ih
  | outside _ _ ih => exact ih

/-! ### Ends of patterns -/

/-- The end of a pattern for everything below a directory. -/
def treeEnd : List Char := ['/', '*', '*']

/-- A double star with the slash after it. -/
def deepSlash : List Char := ['*', '*', '/']

/-- A slash and two stars spell a slash and a double star. -/
private theorem spells_treeEnd (before : Option Char) :
    Spells before treeEnd [.literal '/', .anyDepth] :=
  .literal (by decide) (.lastDepth (by decide))

/-- One token more at the front, other than a double star, does not change what ends in one. -/
private theorem deepSlash_suffix_append {text : List Char} {token : Token} {tokens : List Token}
    (htoken : token ≠ .anyDepth)
    (h : tokens.getLast? = some .anyDepth → deepSlash <:+ text) (front : List Char)
    (hlast : (token :: tokens).getLast? = some .anyDepth) : deepSlash <:+ front ++ text := by
  cases tokens with
  | nil => exact absurd (by simpa using hlast) htoken
  | cons other tokens => exact (h (by simpa using hlast)).trans (List.suffix_append _ _)

/-- **A slash and two stars add a slash and a double star to the tokens**, except after a double
star at the end, which takes the slash along. The tokens before the slash end in a double star only
if there the text ends in one that has taken a slash along already. -/
theorem Spells.append_treeEnd {before : Option Char} {text : List Char} {tokens : List Token}
    (h : Spells before text tokens) :
    Spells before (text ++ treeEnd) (tokens ++ [.anyDepth]) ∨
      Spells before (text ++ treeEnd) (tokens ++ [.literal '/', .anyDepth]) ∧
        (tokens.getLast? = some .anyDepth → deepSlash <:+ text) := by
  induction h with
  | nil before => exact .inr ⟨spells_treeEnd before, by simp⟩
  | @literal _ c _ _ hplain _ ih =>
    refine ih.imp (.literal hplain) fun ⟨h, hlast⟩ => ⟨.literal hplain h, ?_⟩
    exact deepSlash_suffix_append (by simp) hlast [c]
  | anyChar _ ih =>
    refine ih.imp .anyChar fun ⟨h, hlast⟩ => ⟨.anyChar h, ?_⟩
    exact deepSlash_suffix_append (by simp) hlast ['?']
  | @anyRun _ rest _ hsingle _ ih =>
    have hsingle' : (rest ++ treeEnd).head? ≠ some '*' := by
      cases rest with
      | nil => decide
      | cons c rest => exact hsingle
    refine ih.imp (.anyRun hsingle') fun ⟨h, hlast⟩ => ⟨.anyRun hsingle' h, ?_⟩
    exact deepSlash_suffix_append (by simp) hlast ['*']
  | @anyDepth _ rest tokens hopens h ih =>
    refine ih.imp (.anyDepth hopens) fun ⟨h', hlast⟩ => ⟨.anyDepth hopens h', fun hdeep => ?_⟩
    cases tokens with
    | nil =>
      -- nothing comes after this double star
      cases h
      exact List.suffix_rfl
    | cons other tokens =>
      exact (hlast (by simpa using hdeep)).trans (List.suffix_append deepSlash rest)
  | lastDepth hopens => exact .inl (.anyDepth hopens (.lastDepth (by decide)))
  | @within _ first inside rest _ hfirst hinside _ ih =>
    have hassoc : ∀ more, '[' :: first :: (inside ++ ']' :: (rest ++ more)) =
        ('[' :: first :: (inside ++ ']' :: rest)) ++ more := by simp
    rw [← hassoc]
    refine ih.imp (.within hfirst hinside) fun ⟨h, hlast⟩ => ⟨.within hfirst hinside h, ?_⟩
    have hfront : '[' :: first :: (inside ++ ']' :: rest) =
        ('[' :: first :: (inside ++ [']'])) ++ rest := by simp
    exact hfront ▸ deepSlash_suffix_append (by simp) hlast _
  | @outside _ first inside rest _ hinside _ ih =>
    have hassoc : ∀ more, '[' :: '!' :: first :: (inside ++ ']' :: (rest ++ more)) =
        ('[' :: '!' :: first :: (inside ++ ']' :: rest)) ++ more := by simp
    rw [← hassoc]
    refine ih.imp (.outside hinside) fun ⟨h, hlast⟩ => ⟨.outside hinside h, ?_⟩
    have hfront : '[' :: '!' :: first :: (inside ++ ']' :: rest) =
        ('[' :: '!' :: first :: (inside ++ [']'])) ++ rest := by simp
    exact hfront ▸ deepSlash_suffix_append (by simp) hlast _

/-- A bracket in a text with a tree end stands before that end. -/
private theorem exists_eq_of_append_treeEnd (front : List Char) {rest text : List Char}
    (h : text ++ treeEnd = front ++ ']' :: rest) :
    ∃ more, text = front ++ ']' :: more ∧ more ++ treeEnd = rest := by
  rcases List.append_eq_append_iff.1 h with ⟨more, -, hmore⟩ | ⟨more, rfl, hmore⟩
  · have hbracket : ']' ∈ treeEnd := by simp [hmore]
    simp [treeEnd] at hbracket
  · cases more with
    | nil => simp [treeEnd] at hmore
    | cons c more =>
      obtain ⟨rfl, hrest⟩ := List.cons.inj hmore
      exact ⟨more, rfl, hrest.symm⟩

/-- **What stands before a slash and two stars spells something if the whole does.** The end closes
no class, and two stars that stand before it close the text once it is gone, which they may. -/
theorem Spells.of_append_treeEnd {before : Option Char} {text : List Char} {tokens : List Token}
    (h : Spells before (text ++ treeEnd) tokens) : ∃ others, Spells before text others := by
  generalize hwhole : text ++ treeEnd = whole at h
  induction h generalizing text with
  | nil before => simp [treeEnd] at hwhole
  | literal hplain _ ih =>
    cases text with
    | nil => exact ⟨[], .nil _⟩
    | cons d text =>
      obtain ⟨rfl, hrest⟩ := List.cons.inj hwhole
      obtain ⟨others, h⟩ := ih hrest
      exact ⟨_, .literal hplain h⟩
  | anyChar _ ih =>
    cases text with
    | nil => exact ⟨[], .nil _⟩
    | cons d text =>
      obtain ⟨rfl, hrest⟩ := List.cons.inj hwhole
      obtain ⟨others, h⟩ := ih hrest
      exact ⟨_, .anyChar h⟩
  | anyRun hsingle _ ih =>
    cases text with
    | nil => exact ⟨[], .nil _⟩
    | cons d text =>
      obtain ⟨rfl, rfl⟩ := List.cons.inj hwhole
      obtain ⟨others, h⟩ := ih rfl
      have hsingle' : text.head? ≠ some '*' := by
        cases text with
        | nil => simp
        | cons c text => exact hsingle
      exact ⟨_, .anyRun hsingle' h⟩
  | @anyDepth _ rest _ hopens _ ih =>
    match text, hwhole with
    | [], _ => exact ⟨[], .nil _⟩
    | [_], hwhole => simp [treeEnd] at hwhole
    | [c, d], hwhole =>
      obtain ⟨rfl, rfl, -⟩ : c = '*' ∧ d = '*' ∧ ['*', '*'] = rest := by
        simpa [treeEnd] using hwhole
      exact ⟨_, .lastDepth hopens⟩
    | c :: d :: e :: text, hwhole =>
      obtain ⟨rfl, rfl, rfl, hrest⟩ : c = '*' ∧ d = '*' ∧ e = '/' ∧ text ++ treeEnd = rest := by
        simpa using hwhole
      obtain ⟨others, h⟩ := ih hrest
      exact ⟨_, .anyDepth hopens h⟩
  | lastDepth hopens => simpa [treeEnd] using congrArg List.length hwhole
  | @within _ first inside _ _ hfirst hinside _ ih =>
    obtain ⟨more, rfl, hrest⟩ := exists_eq_of_append_treeEnd ('[' :: first :: inside) hwhole
    obtain ⟨others, h⟩ := ih hrest
    exact ⟨_, .within hfirst hinside h⟩
  | @outside _ first inside _ _ hinside _ ih =>
    obtain ⟨more, rfl, hrest⟩ :=
      exists_eq_of_append_treeEnd ('[' :: '!' :: first :: inside) hwhole
    obtain ⟨others, h⟩ := ih hrest
    exact ⟨_, .outside hinside h⟩

/-- An end without a character comes after the character. -/
private theorem suffix_of_suffix_append_cons {c : Char} {ending rest : List Char} (text : List Char)
    (hc : c ∉ ending) (h : ending <:+ text ++ c :: rest) : ending <:+ rest := by
  obtain ⟨front, hfront⟩ := h
  rcases List.append_eq_append_iff.1 hfront with ⟨more, -, rfl⟩ | ⟨more, -, hmore⟩
  · simp at hc
  · cases more with
    | nil =>
      obtain rfl : c :: rest = ending := hmore
      simp at hc
    | cons d more => exact ⟨more, (List.cons.inj hmore).2.symm⟩

/-- A text that ends in a double star, two slashes and a double star spells a slash between the
double stars. -/
theorem Spells.exists_eq_append {before : Option Char} {text : List Char} {tokens : List Token}
    (h : Spells before text tokens) (hend : deepSlash ++ treeEnd <:+ text) :
    ∃ front, tokens = front ++ [.anyDepth, .literal '/', .anyDepth] := by
  have hcons : ∀ {token : Token} {tokens : List Token},
      (∃ front, tokens = front ++ [.anyDepth, .literal '/', .anyDepth]) →
      ∃ front, token :: tokens = front ++ [.anyDepth, .literal '/', .anyDepth] :=
    fun {token} _ ⟨front, hfront⟩ => ⟨token :: front, by simp [hfront]⟩
  induction h with
  | nil before => simp [deepSlash] at hend
  | literal hplain _ ih =>
    refine hcons (ih ((List.suffix_cons_iff.1 hend).resolve_left fun heq => ?_))
    exact hplain.2.1 (List.cons.inj heq).1.symm
  | anyChar _ ih =>
    exact hcons (ih ((List.suffix_cons_iff.1 hend).resolve_left (by simp [deepSlash])))
  | anyRun hsingle _ ih =>
    refine hcons (ih ((List.suffix_cons_iff.1 hend).resolve_left fun heq => ?_))
    exact hsingle ((List.cons.inj heq).2 ▸ rfl)
  | anyDepth hopens h ih =>
    rcases List.suffix_cons_iff.1 hend with heq | hend
    · -- the text is the end itself
      obtain rfl : treeEnd = _ := by simpa [deepSlash] using heq
      exact ⟨[], by rw [h.unique (spells_treeEnd _)]; rfl⟩
    · have hend := (List.suffix_cons_iff.1 hend).resolve_left (by simp [deepSlash])
      exact hcons (ih ((List.suffix_cons_iff.1 hend).resolve_left (by simp [deepSlash])))
  | lastDepth hopens => exact absurd hend.length_le (by decide)
  | within _ _ _ ih =>
    exact hcons (ih (suffix_of_suffix_append_cons ('[' :: _ :: _) (by decide) hend))
  | outside _ _ ih =>
    exact hcons (ih (suffix_of_suffix_append_cons ('[' :: '!' :: _ :: _) (by decide) hend))

end FileRoutes.Glob
