/-!
# Stable sorting

Sorting by insertion keeps items of equal rank in their given order. It recurses on the list
alone, so that the kernel can evaluate it on a closed list; for a total preorder it gives the same
list as merging does (`stableSort_eq_mergeSort`).
-/

namespace FileRoutes

variable {α : Type}

/-- Puts an item in front of the first one that it may precede. -/
def insertSorted (le : α → α → Bool) (a : α) : List α → List α
  | [] => [a]
  | b :: rest => if le a b then a :: b :: rest else b :: insertSorted le a rest

/-- The items in order, those of equal rank in their given order. -/
def stableSort (le : α → α → Bool) : List α → List α
  | [] => []
  | a :: rest => insertSorted le a (stableSort le rest)

/-- Inserting adds the item and nothing else. -/
theorem insertSorted_perm (le : α → α → Bool) (a : α) (l : List α) :
    (insertSorted le a l).Perm (a :: l) := by
  induction l with
  | nil => exact List.Perm.refl _
  | cons b rest ih =>
    unfold insertSorted
    split
    · exact List.Perm.refl _
    · exact (ih.cons b).trans (List.Perm.swap a b rest)

/-- Sorting loses and invents nothing. -/
theorem stableSort_perm (le : α → α → Bool) (l : List α) : (stableSort le l).Perm l := by
  induction l with
  | nil => exact List.Perm.refl _
  | cons a rest ih => exact (insertSorted_perm le a _).trans (ih.cons a)

/-- An item goes behind all that it may not precede. -/
theorem insertSorted_append_of_false {le : α → α → Bool} {a : α} {l₁ : List α}
    (h : ∀ b ∈ l₁, le a b = false) (l₂ : List α) :
    insertSorted le a (l₁ ++ l₂) = l₁ ++ insertSorted le a l₂ := by
  induction l₁ with
  | nil => rfl
  | cons c rest ih =>
    have hc := h c List.mem_cons_self
    have hrest := ih fun b hb => h b (List.mem_cons_of_mem c hb)
    simp [insertSorted, hc, hrest]

/-- An item goes in front of all that it may precede. -/
theorem insertSorted_append_of_true {le : α → α → Bool} {a : α} {l₂ : List α}
    (h : ∀ b ∈ l₂, le a b = true) (l₁ : List α) :
    insertSorted le a (l₁ ++ l₂) = insertSorted le a l₁ ++ l₂ := by
  induction l₁ with
  | nil =>
    cases l₂ with
    | nil => rfl
    | cons b rest => simp [insertSorted, h b List.mem_cons_self]
  | cons c rest ih =>
    simp only [List.cons_append, insertSorted, ih]
    split <;> rfl

/-- An item goes behind all that it may not precede, and in front of the next. -/
theorem insertSorted_append {le : α → α → Bool} {a : α} {l₁ l₂ : List α}
    (h₁ : ∀ b ∈ l₁, le a b = false) (h₂ : ∀ b ∈ l₂, le a b = true) :
    insertSorted le a (l₁ ++ l₂) = l₁ ++ a :: l₂ := by
  have hfront := insertSorted_append_of_true h₂ []
  rw [insertSorted_append_of_false h₁]
  exact congrArg (l₁ ++ ·) hfront

/-- Only how the item compares with those that are there matters. -/
theorem insertSorted_congr {le le' : α → α → Bool} {a : α} {l : List α}
    (h : ∀ b ∈ l, le a b = le' a b) : insertSorted le a l = insertSorted le' a l := by
  induction l with
  | nil => rfl
  | cons b rest ih =>
    obtain ⟨hb, hrest⟩ := List.forall_mem_cons.1 h
    rw [insertSorted, insertSorted, hb, ih hrest]

/-- For a total preorder, insertion sorts as merging does. -/
theorem stableSort_eq_mergeSort {le : α → α → Bool}
    (trans : ∀ a b c, le a b = true → le b c = true → le a c = true)
    (total : ∀ a b, (le a b || le b a) = true) (l : List α) :
    stableSort le l = l.mergeSort le := by
  induction l with
  | nil => simp [stableSort]
  | cons a rest ih =>
    obtain ⟨l₁, l₂, hcons, hrest, hbefore⟩ := List.mergeSort_cons trans total a rest
    have hafter : ∀ b ∈ l₂, le a b = true := by
      have hsorted := List.pairwise_mergeSort trans total (a :: rest)
      rw [hcons] at hsorted
      have htail := (List.pairwise_append.1 hsorted).2.1
      exact (List.pairwise_cons.1 htail).1
    rw [stableSort, ih, hrest, hcons]
    exact insertSorted_append (fun b hb => by simpa using hbefore b hb) hafter

/-- For a total preorder, each item may precede those after it. -/
theorem pairwise_stableSort {le : α → α → Bool}
    (trans : ∀ a b c, le a b = true → le b c = true → le a c = true)
    (total : ∀ a b, (le a b || le b a) = true) (l : List α) :
    (stableSort le l).Pairwise fun a b => le a b = true := by
  rw [stableSort_eq_mergeSort trans total]
  exact List.pairwise_mergeSort trans total l

end FileRoutes
