import FileRoutes.Proofs.Rearranged

/-!
# One role for every child

Giving roles to the children of a directory deals them out by position: some list of **roles**, one
for each position, says where every child went, and each part of the partition holds the children
of one role in their order (`Partition.DealtBy`). One more child is one more role
(`Partition.DealtBy.add`), so the same holds of all children (`Partition.exists_dealtBy_split`).

What the parts are then follows from the children alone: the layout is the first one there is, the
index page the first one if there is no layout, and the dynamic directories all of them or none. The
index pages beside a layout all stay with the others, wherever they stand
(`Partition.nestedIndexPages_split`): the layout that matters is one among all the children, not one
among those that were dealt out before.

Main result: `Partition.roles_exact`.
-/

namespace FileRoutes

/-- A layout is no index page. -/
theorem Node.isIndexPage_of_isLayout {n : Node} (h : n.isLayout = true) :
    n.isIndexPage = false := by
  simp_all [Node.isLayout, Node.isIndexPage]

/-- A directory is no index page. -/
theorem Node.isIndexPage_of_isRoute {n : Node} (h : n.isRoute = true) :
    n.isIndexPage = false := by
  simp_all [Node.isRoute, Node.isIndexPage]

namespace Partition

/-- What a child of a directory can be to it. -/
inductive Role where
  /-- The layout of the directory. -/
  | layout
  /-- Its index page. -/
  | index
  /-- A dynamic directory that is taken out. -/
  | dynamic
  /-- Anything else. -/
  | other
deriving DecidableEq, Repr

/-- The children that have a role. -/
def withRole (p : Partition) : Role → List Node
  | .layout => p.layout.toList
  | .index => p.index.toList
  | .dynamic => p.dynamic
  | .other => p.other

/-- The role that one more child is given. -/
def roleOf (hasLayout hoist : Bool) (p : Partition) (child : Node) : Role :=
  if child.isLayout && p.layout.isNone then .layout
  else if !hasLayout && child.isIndexPage && p.index.isNone then .index
  else if hoist && child.isRoute && child.isDynamic then .dynamic
  else .other

/-- The children at the positions of a role, in their order. -/
def pick (role : Role) (children : List Node) (roles : List Role) : List Node :=
  ((children.zip roles).filter fun x => x.2 = role).map Prod.fst

/-- Every position has one role, and the children with a role are those at its positions. -/
structure DealtBy (children : List Node) (roles : List Role) (p : Partition) : Prop where
  length_eq : roles.length = children.length
  withRole_eq : ∀ role, p.withRole role = pick role children roles

variable {hasLayout hoist : Bool} {p : Partition} {children : List Node} {roles : List Role}

/-- One more position comes after those that there are. -/
theorem pick_append_singleton (h : roles.length = children.length) (role r : Role) (child : Node) :
    pick role (children ++ [child]) (roles ++ [r]) =
      pick role children roles ++ if r = role then [child] else [] := by
  unfold pick
  rw [List.zip_append h.symm, List.filter_append, List.map_append]
  by_cases hr : r = role <;> simp [hr]

/-- One more child joins those that have its role, after them, and no others. -/
theorem withRole_add (hasLayout hoist : Bool) (p : Partition) (child : Node) (role : Role) :
    (p.add hasLayout hoist child).withRole role =
      p.withRole role ++ if p.roleOf hasLayout hoist child = role then [child] else [] := by
  unfold add roleOf
  split
  · next h =>
    have hnone : p.layout = none := by simp_all
    cases role <;> simp [withRole, hnone]
  · split
    · next h =>
      have hnone : p.index = none := by simp_all
      cases role <;> simp [withRole, hnone]
    · split <;> cases role <;> simp [withRole]

/-- One more child is one more role. -/
theorem DealtBy.add (h : p.DealtBy children roles) (child : Node) :
    (p.add hasLayout hoist child).DealtBy (children ++ [child])
      (roles ++ [p.roleOf hasLayout hoist child]) where
  length_eq := by simp [h.length_eq]
  withRole_eq role := by
    rw [withRole_add, h.withRole_eq, pick_append_singleton h.length_eq]

/-- All children are dealt out. -/
theorem exists_dealtBy_split (hoist : Bool) (children : List Node) :
    ∃ roles, (split hoist children).DealtBy children roles := by
  refine split_induction (P := fun cs p => ∃ roles, p.DealtBy cs roles) ⟨[], rfl, ?_⟩ ?_
  · rintro (_ | _ | _ | _) <;> rfl
  · rintro cs p c ⟨roles, h⟩
    exact ⟨_, h.add c⟩

/-- Where no child is a layout, a child is the index page if it is one and the first. -/
theorem index_add (hoist : Bool) (p : Partition) (child : Node) :
    (p.add false hoist child).index =
      p.index.or (if child.isIndexPage then some child else none) := by
  unfold add
  split
  · next h =>
    have hlayout : child.isLayout = true := by simp_all
    simp [Node.isIndexPage_of_isLayout hlayout]
  · split
    · next h => simp_all
    · next h =>
      have hstays : p.index.or (if child.isIndexPage then some child else none) = p.index := by
        cases hi : p.index <;> simp_all
      split <;> exact hstays.symm

/-- The index page is the first one among the children, if none of them is a layout. -/
theorem index_split_eq (hoist : Bool) (children : List Node) :
    (split hoist children).index =
      if children.any Node.isLayout then none else children.find? Node.isIndexPage := by
  cases hany : children.any Node.isLayout with
  | true => simpa using index_split hany
  | false =>
    refine split_induction (P := fun cs p => p.index = cs.find? Node.isIndexPage) rfl
      fun cs p c ih => ?_
    rw [hany, index_add, ih, List.find?_append]
    cases hc : c.isIndexPage <;> simp [hc]

/-- Beside a layout an index page is one of the others, whatever was dealt out before it. -/
theorem filter_other_add (hoist : Bool) (p : Partition) (child : Node) :
    (p.add true hoist child).other.filter Node.isIndexPage =
      p.other.filter Node.isIndexPage ++ [child].filter Node.isIndexPage := by
  unfold add
  split
  · next h =>
    have hlayout : child.isLayout = true := by simp_all
    simp [Node.isIndexPage_of_isLayout hlayout]
  · split
    · next h => simp at h
    · split
      · next h =>
        have hroute : child.isRoute = true := by simp_all
        simp [Node.isIndexPage_of_isRoute hroute]
      · rw [List.filter_append]

/-- The index pages inside a layout are all there are, and there are none without a layout. -/
theorem nestedIndexPages_split (hoist : Bool) (children : List Node) :
    (split hoist children).nestedIndexPages =
      if children.any Node.isLayout then children.filter Node.isIndexPage else [] := by
  have hlayout : (split hoist children).layout.isSome = children.any Node.isLayout := by
    rw [layout_split, Bool.eq_iff_iff, List.find?_isSome, List.any_eq_true]
  unfold nestedIndexPages
  rw [hlayout]
  cases hany : children.any Node.isLayout with
  | false => simp
  | true =>
    simp only [Bool.true_and, if_true]
    refine split_induction
      (P := fun cs p => p.other.filter Node.isIndexPage = cs.filter Node.isIndexPage) rfl
      fun cs p c ih => ?_
    rw [hany, filter_other_add, ih, List.filter_append]

/-- The children are dealt out, and the parts that can be told from the children are what they
should be. -/
structure Exact (children : List Node) (p : Partition) : Prop where
  dealt : ∃ roles, p.DealtBy children roles
  layout_eq : p.layout = children.find? Node.isLayout
  index_eq : p.index =
    if children.any Node.isLayout then none else children.find? Node.isIndexPage
  nestedIndexPages_eq : p.nestedIndexPages =
    if children.any Node.isLayout then children.filter Node.isIndexPage else []

/-- The roles that children are given are exact. -/
theorem exact_split (hoist : Bool) (children : List Node) :
    (split hoist children).Exact children where
  dealt := exists_dealtBy_split hoist children
  layout_eq := layout_split hoist children
  index_eq := index_split_eq hoist children
  nestedIndexPages_eq := nestedIndexPages_split hoist children

/-- **Every child has one role, and the right one**, in a directory whose dynamic directories are
taken out as in one that keeps them. Every position has exactly one role, and the children of a role
keep their order; the layout is the first one, the index page is the first one if there is no layout
among the children, and beside a layout all index pages stay inside. What is taken out are the
dynamic directories, all of them or none. -/
theorem roles_exact (children : List Node) :
    (directory children).Exact children ∧
    (directory children).dynamic = children.filter (fun n => n.isRoute && n.isDynamic) ∧
    (hoisted children).Exact children ∧
    (hoisted children).dynamic = [] := by
  have hdynamic : (directory children).dynamic =
      children.filter (fun n => n.isRoute && n.isDynamic) := dynamic_split true children
  exact ⟨exact_split true children, hdynamic, exact_split false children,
    dynamic_hoisted children⟩

/-- A layout that is dynamic is the layout all the same, one that comes second is one of the others,
and so is an index page that comes before both. -/
example :
    (directory [.indexPage "page.tsx", ⟨.layout, "", "a.tsx", true, false, []⟩,
      .route ":id" true [], .layout "b.tsx" []]).withRole .other =
        [.indexPage "page.tsx", .layout "b.tsx" []] := by
  decide

end Partition

end FileRoutes
