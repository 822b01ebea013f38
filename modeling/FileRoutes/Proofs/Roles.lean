import FileRoutes.Partition
import Mathlib.Data.List.Induction
import Mathlib.Data.List.Perm.Basic

/-!
# The roles of children

What becomes of the children of a directory when they are given their roles: every child has one
(`all_split_perm`), the layout is the first one there is (`layout_split`), an index page has a role
of its own only where there is no layout (`index_split`), and what is taken out are dynamic
directories (`isRoute_of_mem_dynamic_split`). Each of these is an invariant of giving roles to one
child after the other (`split_induction`).
-/

namespace FileRoutes.Partition

/-- The children with a role, in no particular order. -/
def all (p : Partition) : List Node :=
  p.layout.toList ++ p.index.toList ++ p.dynamic ++ p.other

/-- The nodes that end up inside the entry of the directory, or in its place if it has none. -/
def inside (p : Partition) : List Node :=
  match p.layout with
  | some layout => layout.children ++ p.other
  | none => p.other

variable {hasLayout hoist : Bool} {p : Partition} {children : List Node}

/-- What one more child becomes: the layout, the index page, a directory to take out, or one of
the others. -/
theorem add_cases (hasLayout hoist : Bool) (p : Partition) (child : Node) :
    (child.isLayout = true ∧ p.layout = none ∧
      p.add hasLayout hoist child = { p with layout := some child }) ∨
    (child.isLayout = true → p.layout.isSome = true) ∧
      ((hasLayout = false ∧ p.index = none ∧
        p.add hasLayout hoist child = { p with index := some child }) ∨
      (hoist = true ∧ child.isRoute = true ∧ child.isDynamic = true ∧
        p.add hasLayout hoist child = { p with dynamic := p.dynamic ++ [child] }) ∨
      p.add hasLayout hoist child = { p with other := p.other ++ [child] }) := by
  unfold add
  split
  · next h => exact .inl (by simpa using h)
  · next h =>
    refine .inr ⟨fun hc => by simpa [hc, Option.isSome_iff_ne_none] using h, ?_⟩
    split
    · next h => exact .inl (by simp_all)
    · split
      · next h => exact .inr (.inl (by simpa [and_assoc] using h))
      · exact .inr (.inr rfl)

/-- A child is given one role. -/
theorem all_add_perm (p : Partition) (child : Node) :
    (p.add hasLayout hoist child).all.Perm (child :: p.all) := by
  rw [List.perm_iff_count]
  intro n
  obtain ⟨-, hl, h⟩ | ⟨-, ⟨-, hi, h⟩ | ⟨-, -, -, h⟩ | h⟩ := add_cases hasLayout hoist p child <;>
    rw [h] <;>
    simp only [all, *, List.count_append, List.count_cons, Option.toList_some, Option.toList_none,
      List.count_nil] <;>
    omega

/-- Induction on a split: over the children that have been given a role so far. -/
theorem split_induction {P : List Node → Partition → Prop} (nil : P [] {})
    (add : ∀ cs p c, P cs p → P (cs ++ [c]) (p.add (children.any Node.isLayout) hoist c)) :
    P children (split hoist children) := by
  have key : ∀ cs : List Node,
      P cs (cs.foldl (Partition.add (children.any Node.isLayout) hoist) {}) := by
    intro cs
    induction cs using List.reverseRecOn with
    | nil => exact nil
    | append_singleton cs c ih =>
      rw [List.foldl_append]
      exact add cs _ c ih
  exact key children

/-- Every child has one role. -/
theorem all_split_perm (hoist : Bool) (children : List Node) :
    (split hoist children).all.Perm children := by
  refine split_induction (P := fun cs p => p.all.Perm cs) (List.Perm.refl _) fun cs p c ih => ?_
  exact (all_add_perm p c).trans ((ih.cons c).trans (List.perm_append_singleton c cs).symm)

/-- A child is the layout if it is one and the first. -/
theorem layout_add (p : Partition) (child : Node) :
    (p.add hasLayout hoist child).layout =
      p.layout.or (if child.isLayout then some child else none) := by
  obtain ⟨hc, hl, h⟩ | ⟨hc, ⟨-, -, h⟩ | ⟨-, -, -, h⟩ | h⟩ := add_cases hasLayout hoist p child
  -- a layout becomes one only if there is none yet, and anything else changes nothing
  · rw [h, hl, if_pos hc, Option.none_or]
  all_goals
    rw [h]
    cases hl : p.layout with
    | none => simp_all
    | some layout => rfl

/-- The layout is the first layout among the children. -/
theorem layout_split (hoist : Bool) (children : List Node) :
    (split hoist children).layout = children.find? Node.isLayout := by
  refine split_induction (P := fun cs p => p.layout = cs.find? Node.isLayout) rfl
    fun cs p c ih => ?_
  rw [layout_add, ih, List.find?_append]
  cases hc : c.isLayout <;> simp [hc]

/-- Beside a layout no index page has a role of its own. -/
theorem index_split (h : children.any Node.isLayout = true) :
    (split hoist children).index = none := by
  refine split_induction (P := fun _ p => p.index = none) rfl fun cs p c ih => ?_
  rw [h]
  obtain ⟨-, -, hadd⟩ | ⟨-, ⟨hf, -⟩ | ⟨-, -, -, hadd⟩ | hadd⟩ := add_cases true hoist p c
  · rw [hadd, ih]
  · cases hf
  · rw [hadd, ih]
  · rw [hadd, ih]

/-- The child with the role of the index page is one. -/
theorem isIndexPage_of_index_split {n : Node} (h : (split hoist children).index = some n) :
    n.isIndexPage = true := by
  have key := @split_induction hoist children (fun _ p => p.index = some n → n.isIndexPage = true)
    nofun fun cs p c ih hn => ?_
  · exact key h
  unfold add at hn
  split at hn
  · exact ih hn
  · split at hn
    · next hc =>
      obtain rfl : c = n := by simpa using hn
      simp_all
    · split at hn <;> exact ih hn

/-- What is taken out are dynamic directories, and only if any are to be. -/
theorem isRoute_of_mem_dynamic_split {n : Node} (h : n ∈ (split hoist children).dynamic) :
    hoist = true ∧ n.isRoute = true ∧ n.isDynamic = true := by
  have key := @split_induction hoist children
    (fun _ p => n ∈ p.dynamic → hoist = true ∧ n.isRoute = true ∧ n.isDynamic = true) nofun
    fun cs p c ih hn => ?_
  · exact key h
  obtain ⟨-, -, hadd⟩ | ⟨-, ⟨-, -, hadd⟩ | ⟨hhoist, hroute, hdynamic, hadd⟩ | hadd⟩ :=
    add_cases (children.any Node.isLayout) hoist p c
  · exact ih (by rwa [hadd] at hn)
  · exact ih (by rwa [hadd] at hn)
  · rw [hadd] at hn
    rcases List.mem_append.1 hn with hn | hn
    · exact ih hn
    · obtain rfl := List.mem_singleton.1 hn
      exact ⟨hhoist, hroute, hdynamic⟩
  · exact ih (by rwa [hadd] at hn)

/-- Where dynamic directories are taken out, none is left among the others. -/
theorem not_isDynamic_of_mem_other_split {n : Node} (h : n ∈ (split true children).other)
    (hroute : n.isRoute = true) : n.isDynamic = false := by
  have key := @split_induction true children
    (fun _ p => n ∈ p.other → n.isDynamic = false) nofun fun cs p c ih hn => ?_
  · exact key h
  unfold add at hn
  split at hn
  · exact ih hn
  · split at hn
    · exact ih hn
    · split at hn
      · exact ih hn
      · next hstays =>
        rcases List.mem_append.1 hn with hn | hn
        · exact ih hn
        · obtain rfl := List.mem_singleton.1 hn
          simpa [hroute] using hstays

/-- The children of a hoisted directory all stay inside it. -/
theorem dynamic_hoisted (children : List Node) : (hoisted children).dynamic = [] := by
  refine List.eq_nil_iff_forall_not_mem.2 fun n hn => ?_
  obtain ⟨hhoist, -⟩ := isRoute_of_mem_dynamic_split hn
  exact absurd hhoist Bool.false_ne_true

/-- The children by role, where one of them is a layout. -/
theorem split_perm_of_layout {layout : Node} (h : (split hoist children).layout = some layout) :
    (layout :: ((split hoist children).dynamic ++ (split hoist children).other)).Perm children := by
  have hl := h
  rw [layout_split] at hl
  have hany : children.any Node.isLayout = true :=
    List.any_eq_true.2 ⟨layout, List.mem_of_find?_eq_some hl, List.find?_some hl⟩
  simpa [all, h, index_split hany] using all_split_perm hoist children

/-- Without children there is no role to give. -/
@[simp] theorem split_nil (hoist : Bool) : split hoist [] = {} := rfl

end FileRoutes.Partition
