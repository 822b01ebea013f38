import FileRoutes.Proofs.Levels

/-!
# Trees up to the order of siblings

Two lists of trees are **rearranged** if they differ in the order of siblings only, at whatever
level: the same trees are inside the same tree. Route trees and configurations are compared in this
way, and each tree is known by its fields and by what is inside.

A list that is rearranged is matched tree by tree with the other one, up to one permutation of the
list as a whole (`Rearranged.exists_matched_perm`). So what depends on the fields of trees alone
chooses rearranged lists from rearranged lists (`Rearranged.filter`), and in this way the children
of a directory get the same roles in any order, if it has a layout and no other one
(`Partition.Rearranged.split`).

Main result: rearranged route trees are converted to rearranged configurations, if directories with
contents have exactly one layout (`Node.Rearranged.convert`).
-/

namespace FileRoutes

/-! ### Rearranged trees -/

section

variable {α β : Type} (label : α → β) (children : α → List α)

/-- The trees are the same up to the order of siblings. A tree is known by its label and by the
trees inside. -/
inductive Rearranged : List α → List α → Prop
  /-- Siblings change places. -/
  | perm {as bs : List α} (h : as.Perm bs) : Rearranged as bs
  /-- What is inside of siblings is rearranged. -/
  | cons {a b : α} {as bs : List α} (hlabel : label a = label b)
    (hinside : Rearranged (children a) (children b)) (h : Rearranged as bs) :
    Rearranged (a :: as) (b :: bs)
  | trans {as bs cs : List α} (h : Rearranged as bs) (k : Rearranged bs cs) : Rearranged as cs

/-- Two trees that have the same label, and the same inside up to the order of siblings. -/
structure Matched (a b : α) : Prop where
  label_eq : label a = label b
  inside : Rearranged label children (children a) (children b)

end

section

variable {α β : Type} {label : α → β} {children : α → List α} {a b c : α} {as bs cs ds : List α}

namespace Rearranged

theorem refl (as : List α) : Rearranged label children as as :=
  .perm (List.Perm.refl as)

theorem symm (h : Rearranged label children as bs) : Rearranged label children bs as := by
  induction h with
  | perm h => exact .perm h.symm
  | cons hlabel _ _ ihinside ih => exact .cons hlabel.symm ihinside ih
  | trans _ _ ih ihk => exact .trans ihk ih

theorem append_right (h : Rearranged label children as bs) (cs : List α) :
    Rearranged label children (as ++ cs) (bs ++ cs) := by
  induction h with
  | perm h => exact .perm (h.append_right cs)
  | cons hlabel hinside _ _ ih => exact .cons hlabel hinside ih
  | trans _ _ ih ihk => exact .trans ih ihk

/-- Lists that are rearranged are so one behind the other. -/
theorem append (h : Rearranged label children as bs) (k : Rearranged label children cs ds) :
    Rearranged label children (as ++ cs) (bs ++ ds) := by
  have hfront := (k.append_right bs).trans (.perm List.perm_append_comm)
  exact (h.append_right cs).trans (.trans (.perm List.perm_append_comm) hfront)

/-- What is chosen by the label of trees is rearranged as well. -/
theorem filter {p : α → Bool} (hp : ∀ a b, label a = label b → p a = p b)
    (h : Rearranged label children as bs) :
    Rearranged label children (as.filter p) (bs.filter p) := by
  induction h with
  | perm h => exact .perm (h.filter p)
  | @cons a b as bs hlabel hinside _ _ ih =>
    cases ha : p a with
    | true =>
      have hb : p b = true := hp a b hlabel ▸ ha
      rw [List.filter_cons_of_pos ha, List.filter_cons_of_pos hb]
      exact .cons hlabel hinside ih
    | false =>
      have hb : p b = false := hp a b hlabel ▸ ha
      rw [List.filter_cons_of_neg (by simp [ha]), List.filter_cons_of_neg (by simp [hb])]
      exact ih
  | trans _ _ ih ihk => exact .trans ih ihk

/-- Whether any tree is chosen by its label does not depend on the order. -/
theorem any_eq {p : α → Bool} (hp : ∀ a b, label a = label b → p a = p b)
    (h : Rearranged label children as bs) : as.any p = bs.any p := by
  induction h with
  | perm h => exact h.any_eq
  | cons hlabel _ _ _ ih => rw [List.any_cons, List.any_cons, hp _ _ hlabel, ih]
  | trans _ _ ih ihk => exact ih.trans ihk

theorem isEmpty_eq (h : Rearranged label children as bs) : as.isEmpty = bs.isEmpty := by
  induction h with
  | perm h => exact h.isEmpty_eq
  | cons => rfl
  | trans _ _ ih ihk => exact ih.trans ihk

end Rearranged

namespace Matched

theorem refl (a : α) : Matched label children a a :=
  ⟨rfl, .refl _⟩

theorem trans (h : Matched label children a b) (k : Matched label children b c) :
    Matched label children a c :=
  ⟨h.label_eq.trans k.label_eq, h.inside.trans k.inside⟩

private theorem forall₂_trans (h : List.Forall₂ (Matched label children) as bs)
    (k : List.Forall₂ (Matched label children) bs cs) :
    List.Forall₂ (Matched label children) as cs := by
  induction h generalizing cs with
  | nil => exact k
  | cons hab _ ih =>
    cases k with
    | cons hbc k => exact .cons (hab.trans hbc) (ih k)

end Matched

namespace Rearranged

/-- **Trees that are rearranged are matched** one by one, up to a permutation. -/
theorem exists_matched_perm (h : Rearranged label children as bs) :
    ∃ cs, List.Forall₂ (Matched label children) as cs ∧ cs.Perm bs := by
  induction h with
  | perm h => exact ⟨_, List.forall₂_same.2 fun a _ => .refl a, h⟩
  | cons hlabel hinside _ _ ih =>
    obtain ⟨cs, hmatched, hperm⟩ := ih
    exact ⟨_, .cons ⟨hlabel, hinside⟩ hmatched, hperm.cons _⟩
  | @trans as bs cs _ _ ih ihk =>
    -- the first permutation is made after the trees are matched for the second time
    obtain ⟨bs', has, hbs⟩ := ih
    obtain ⟨cs', hbs', hcs⟩ := ihk
    obtain ⟨ds, hds, hperm⟩ := List.perm_comp_forall₂ hbs hbs'
    exact ⟨ds, Matched.forall₂_trans has hds, hperm.trans hcs⟩

theorem eq_nil (h : Rearranged label children [] bs) : bs = [] := by
  obtain ⟨cs, hmatched, hperm⟩ := h.exists_matched_perm
  rw [List.forall₂_nil_left_iff.1 hmatched] at hperm
  exact List.nil_perm.1 hperm

/-- One tree is rearranged to one that it is matched with. -/
theorem exists_eq_singleton (h : Rearranged label children [a] bs) :
    ∃ b, bs = [b] ∧ Matched label children a b := by
  obtain ⟨cs, hmatched, hperm⟩ := h.exists_matched_perm
  obtain ⟨b, rest, hab, hrest, rfl⟩ := List.forall₂_cons_left_iff.1 hmatched
  rw [List.forall₂_nil_left_iff.1 hrest] at hperm
  exact ⟨b, List.singleton_perm.1 hperm |>.symm, hab⟩

end Rearranged

end

/-! ### Route trees and configurations -/

/-- A node without the nodes inside. -/
def Node.label (n : Node) : Node :=
  { n with children := [] }

/-- The route trees are the same up to the order of siblings. -/
abbrev Node.Rearranged : List Node → List Node → Prop :=
  FileRoutes.Rearranged Node.label Node.children

/-- The nodes have the same fields, and the same inside up to the order of siblings. -/
abbrev Node.Matched : Node → Node → Prop :=
  FileRoutes.Matched Node.label Node.children

/-- An entry without the entries inside. -/
def Entry.label (e : Entry) : Entry :=
  { e with children := [] }

/-- The configurations are the same up to the order of siblings. -/
abbrev Entry.Rearranged : List Entry → List Entry → Prop :=
  FileRoutes.Rearranged Entry.label Entry.children

/-- Configurations that are the same up to the order of siblings have the same entries. -/
theorem Entry.Rearranged.labels_perm {es fs : List Entry} (h : Entry.Rearranged es fs) :
    ((preorderAll es).map label).Perm ((preorderAll fs).map label) := by
  induction h with
  | @perm es fs h =>
    have hflat : ∀ es, preorderAll es = es.flatMap preorder := by
      intro es
      induction es with
      | nil => simp
      | cons e rest ih => rw [preorderAll_cons, ih, List.flatMap_cons]
    rw [hflat, hflat]
    exact (h.flatMap_right _).map label
  | cons hlabel _ _ ihinside ih =>
    simp only [preorderAll_cons, preorder_eq, List.map_append, List.map_cons, hlabel]
    exact (ihinside.cons _).append ih
  | trans _ _ ih ihk => exact ih.trans ihk

/-- Nodes have the same label if all their fields agree but what is inside. -/
theorem Node.label_eq_iff {n k : Node} :
    n.label = k.label ↔ n.kind = k.kind ∧ n.path = k.path ∧ n.file = k.file ∧
      n.isDynamic = k.isDynamic ∧ n.isIndex = k.isIndex := by
  simp [label]

/-- The label says whether a node is a layout. -/
theorem Node.isLayout_congr (n k : Node) (h : n.label = k.label) : n.isLayout = k.isLayout := by
  rw [isLayout, isLayout, (label_eq_iff.1 h).1]

/-! ### The roles of rearranged children -/

/-- The children have the same roles up to the order of those with the same role. -/
structure Partition.Rearranged (p q : Partition) : Prop where
  layout : Option.Rel Node.Matched p.layout q.layout
  index : Option.Rel Node.Matched p.index q.index
  dynamic : Node.Rearranged p.dynamic q.dynamic
  other : Node.Rearranged p.other q.other

/-- The signs of directories are matched if their roles are. -/
theorem Partition.Rearranged.sign? {p q : Partition} (h : p.Rearranged q) :
    Option.Rel Node.Matched p.sign? q.sign? := by
  obtain ⟨layout?, index?, dynamic, other⟩ := p
  obtain ⟨layout?', index?', dynamic', other'⟩ := q
  cases h.layout with
  | some hmatched => exact .some hmatched
  | none => exact h.index

/-- What is left inside directories is rearranged if their roles are. -/
theorem Partition.Rearranged.inside {p q : Partition} (h : p.Rearranged q) :
    Node.Rearranged p.inside q.inside := by
  obtain ⟨layout?, index?, dynamic, other⟩ := p
  obtain ⟨layout?', index?', dynamic', other'⟩ := q
  cases h.layout with
  | some hmatched => exact hmatched.inside.append h.other
  | none => exact h.other

/-- The directory is to be taken out of the one that it is in, if dynamic ones are. -/
def Node.takenOut (hoist : Bool) (n : Node) : Bool :=
  hoist && n.isRoute && n.isDynamic

/-- What is taken out are the dynamic directories, if they are to be. -/
theorem Partition.dynamic_split (hoist : Bool) (children : List Node) :
    (split hoist children).dynamic = children.filter (Node.takenOut hoist) := by
  refine split_induction (P := fun cs p => p.dynamic = cs.filter (Node.takenOut hoist)) rfl
    fun cs p c ih => ?_
  rw [List.filter_append, ← ih]
  unfold add
  split
  · next h => simp_all [Node.takenOut, Node.isLayout, Node.isRoute]
  · split
    · next h => simp_all [Node.takenOut, Node.isIndexPage, Node.isRoute]
    · split
      · next h => simp_all [Node.takenOut]
      · next h => simp_all [Node.takenOut]

/-- The label says whether a node is taken out. -/
theorem Node.takenOut_congr (hoist : Bool) (n k : Node) (h : n.label = k.label) :
    n.takenOut hoist = k.takenOut hoist := by
  obtain ⟨hkind, -, -, hdynamic, -⟩ := label_eq_iff.1 h
  simp only [takenOut, isRoute, hkind, hdynamic]

/-- A directory with one layout keeps what is neither that layout nor taken out. -/
theorem Partition.other_split_perm {layout : Node} {children : List Node} (hoist : Bool)
    (h : children.filter Node.isLayout = [layout]) :
    (split hoist children).other.Perm
      (children.filter fun n => !n.isLayout && !n.takenOut hoist) := by
  have hfirst : (split hoist children).layout = some layout := by
    rw [layout_split, ← List.head?_filter, h, List.head?_cons]
  have hlayout : layout.isLayout = true := List.find?_some (layout_split hoist children ▸ hfirst)
  have hperm := split_perm_of_layout hfirst
  have hdynamic : ∀ n ∈ (split hoist children).dynamic, n.takenOut hoist = true := fun n hn => by
    rw [dynamic_split] at hn
    exact (List.mem_filter.1 hn).2
  have hother : ∀ n ∈ (split hoist children).other,
      n.isLayout = false ∧ n.takenOut hoist = false := by
    intro n hn
    constructor
    · -- a second layout would be one more than there are
      have hlayouts := hperm.filter Node.isLayout
      rw [h, List.filter_cons_of_pos hlayout, List.perm_singleton, List.cons_inj_right,
        List.filter_eq_nil_iff] at hlayouts
      simpa using hlayouts n (List.mem_append_right _ hn)
    · cases hoist with
      | false => rfl
      | true =>
        cases hroute : n.isRoute with
        | false => simp [Node.takenOut, hroute]
        | true => simp [Node.takenOut, not_isDynamic_of_mem_other_split hn hroute]
  have hkept := hperm.filter fun n => !n.isLayout && !n.takenOut hoist
  rw [List.filter_cons_of_neg (by simp [hlayout]), List.filter_append,
    List.filter_eq_nil_iff.2 fun n hn => by simp [hdynamic n hn], List.nil_append,
    List.filter_eq_self.2 fun n hn => by simp [hother n hn]] at hkept
  exact hkept

/-- A directory holds at most one layout. -/
def Node.OneLayout (n : Node) : Prop :=
  n.isRoute = true → (n.children.filter isLayout).length ≤ 1

instance (n : Node) : Decidable n.OneLayout :=
  inferInstanceAs (Decidable (_ → _))

instance (nodes : List Node) : Decidable (Node.All Node.OneLayout nodes) :=
  inferInstanceAs (Decidable (∀ n ∈ Node.preorderAll nodes, n.OneLayout))

/-- **The children of a directory have the same roles in any order**, if there are none or one of
them is a layout and no other one. -/
theorem Partition.Rearranged.split (hoist : Bool) {cs ds : List Node}
    (hcovered : cs = [] ∨ cs.any Node.isLayout = true)
    (hone : (cs.filter Node.isLayout).length ≤ 1) (h : Node.Rearranged cs ds) :
    (Partition.split hoist cs).Rearranged (Partition.split hoist ds) := by
  rcases hcovered with rfl | hany
  · obtain rfl := h.eq_nil
    exact ⟨.none, .none, .refl _, .refl _⟩
  have hpos : 0 < (cs.filter Node.isLayout).length := by
    obtain ⟨layout, hmem, hlayout⟩ := List.any_eq_true.1 hany
    exact List.length_pos_of_mem (List.mem_filter.2 ⟨hmem, hlayout⟩)
  obtain ⟨layout, hlayout⟩ := List.length_eq_one_iff.1 (Nat.le_antisymm hone hpos)
  have hlayouts := h.filter Node.isLayout_congr
  rw [hlayout] at hlayouts
  obtain ⟨layout', hlayout', hmatched⟩ := hlayouts.exists_eq_singleton
  have hany' : ds.any Node.isLayout = true := by
    rw [List.any_eq_true]
    exact ⟨layout', List.mem_filter.1 (hlayout' ▸ List.mem_singleton_self layout')⟩
  refine ⟨?_, ?_, ?_, ?_⟩
  · rw [layout_split, layout_split, ← List.head?_filter, ← List.head?_filter, hlayout, hlayout']
    exact .some hmatched
  · rw [index_split hany, index_split hany']
    exact .none
  · rw [dynamic_split, dynamic_split]
    exact h.filter (Node.takenOut_congr hoist)
  · refine .trans (.perm (other_split_perm hoist hlayout)) (.trans (h.filter fun n k hlabel => ?_)
      (.perm (other_split_perm hoist hlayout').symm))
    rw [Node.isLayout_congr n k hlabel, Node.takenOut_congr hoist n k hlabel]

/-! ### Converting rearranged trees -/

/-- Nodes that are matched one by one make rearranged entries if each two of them do. -/
private theorem rearranged_flatMap {ns ms : List Node} {f g : Node → List Entry}
    (h : List.Forall₂ Node.Matched ns ms)
    (hf : ∀ n ∈ ns, ∀ k, Node.Matched n k → Entry.Rearranged (f n) (g k)) :
    Entry.Rearranged (ns.flatMap f) (ms.flatMap g) := by
  induction h with
  | nil => exact .refl []
  | cons hmatched _ ih =>
    obtain ⟨hn, hrest⟩ := List.forall_mem_cons.1 hf
    rw [List.flatMap_cons, List.flatMap_cons]
    exact (hn _ hmatched).append (ih hrest)

/-- Levels of rearranged route trees are converted to rearranged levels. -/
theorem Converts.rearranged {top : List Node} (hcovered : Node.All Node.Covered top)
    (hone : Node.All Node.OneLayout top) {ns ms : List Node} (hns : Converts top ns)
    (h : Node.Rearranged ns ms) : Entry.Rearranged (convert ns) (convert ms) := by
  -- a directory that is resolved gives its children the same roles
  have hsplit : ∀ {path hoist d k}, Resolves top path hoist d → Node.Matched d k →
      (Partition.split hoist d.children).Rearranged (Partition.split hoist k.children) := by
    intro path hoist d k hd hmatched
    obtain ⟨hroute, hcovers⟩ := hd.holds hcovered
    exact .split hoist (hcovers hroute) ((hd.holds hone).2 hroute) hmatched.inside
  refine convert_induction
    (fun nodes => Converts top nodes → ∀ ms, Node.Rearranged nodes ms →
      Entry.Rearranged (convert nodes) (convert ms))
    (fun n => Reached top n → ∀ k, Node.Matched n k → Entry.Rearranged n.entries k.entries)
    (fun hoist d => ∀ path, Resolves top path hoist d →
      ∀ q, (Partition.split hoist d.children).Rearranged q →
        Entry.Rearranged (resolve path (.split hoist d.children)) (resolve path q))
    ?level ?layout ?page ?notFound ?route ?resolved ns hns ms h
  case level =>
    intro nodes ih hnodes ms h
    obtain ⟨ks, hmatched, hperm⟩ := h.exists_matched_perm
    have hentries := rearranged_flatMap hmatched fun n hn => ih n hn ⟨nodes, hnodes, hn⟩
    refine .trans (.perm (convert_perm_flatMap nodes)) (hentries.trans (.perm ?_))
    exact (hperm.flatMap_right _).trans (convert_perm_flatMap ms).symm
  case layout =>
    intro n hkind ih hn k h
    obtain ⟨hkinds, -, hfile, -⟩ := Node.label_eq_iff.1 h.label_eq
    obtain ⟨nodes, hnodes, hmem⟩ := hn
    rw [Node.entries_of_ne (by simp [hkind]), Node.entries_of_ne (by simp [← hkinds, hkind]),
      convertNode_of_layout hkind, convertNode_of_layout (hkinds ▸ hkind), ← hfile]
    exact .cons rfl (ih (.layout hnodes hmem hkind) k.children h.inside) (.refl [])
  case page =>
    intro n hkind _ k h
    obtain ⟨hkinds, -, hfile, -, hindexes⟩ := Node.label_eq_iff.1 h.label_eq
    rw [Node.entries_of_ne (by simp [hkind]), Node.entries_of_ne (by simp [← hkinds, hkind]),
      convertNode_of_page hkind, convertNode_of_page (hkinds ▸ hkind), ← hfile, ← hindexes]
    exact .refl _
  case notFound =>
    intro n hkind _ k h
    obtain ⟨hkinds, hpath, hfile, -⟩ := Node.label_eq_iff.1 h.label_eq
    rw [Node.entries_of_notFound hkind, Node.entries_of_notFound (hkinds ▸ hkind), hpath, hfile]
    exact .refl _
  case route =>
    intro n hkind hresolved hhoisted hn k h
    obtain ⟨hkinds, hpath, -⟩ := Node.label_eq_iff.1 h.label_eq
    have hroles := hsplit (hn.resolves hkind) h
    obtain ⟨ks, hmatched, hperm⟩ := hroles.dynamic.exists_matched_perm
    rw [Node.entries_of_ne (by simp [hkind]), Node.entries_of_ne (by simp [← hkinds, hkind]),
      convertNode_of_route hkind, convertNode_of_route (hkinds ▸ hkind), ← hpath]
    refine (hresolved _ (hn.resolves hkind) _ hroles).append
      (.trans (rearranged_flatMap hmatched fun d hd k h => ?_) (.perm (hperm.flatMap_right _)))
    have htaken := hn.resolves_hoisted hkind hd
    rw [← (Node.label_eq_iff.1 h.label_eq).2.1]
    exact hhoisted d hd _ htaken _ (hsplit htaken h)
  case resolved =>
    intro hoist d ih path hd q h
    have hinside := ih hd.converts q.inside h.inside
    have hsigns := h.sign?
    cases hp : (Partition.split hoist d.children).sign? with
    | none =>
      cases hq : q.sign? with
      | none => rwa [resolve_of_sign?_eq_none hp, resolve_of_sign?_eq_none hq]
      | some sign => simp [hp, hq] at hsigns
    | some sign =>
      cases hq : q.sign? with
      | none => simp [hp, hq] at hsigns
      | some sign' =>
        have hmatched : Node.Matched sign sign' := by simpa [hp, hq] using hsigns
        rw [resolve_of_sign?_eq_some hp, resolve_of_sign?_eq_some hq,
          (Node.label_eq_iff.1 hmatched.label_eq).2.2.1]
        exact .cons rfl hinside (.refl [])

/-- **Rearranged route trees are converted to rearranged configurations**, if every directory with
contents has a layout and no directory has two. -/
theorem Node.Rearranged.convert {top ms : List Node} (hcovered : Node.All Node.Covered top)
    (hone : Node.All Node.OneLayout top) (h : Node.Rearranged top ms) :
    Entry.Rearranged (convert top) (convert ms) :=
  Converts.top.rearranged hcovered hone h

end FileRoutes
