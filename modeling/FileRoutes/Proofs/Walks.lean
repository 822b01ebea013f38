import FileRoutes.Command.Execution
import Mathlib.Data.List.Basic
import Mathlib.Data.List.Lex

/-!
# Walks through entries

A walk keeps the entries that are still to be visited on a stack with its top at the end: the top
is taken off and visited, and its children are put on, the last one first, so that the first child
is on top. Whatever is on the stack, the entries that come out are the preorder of the stack from
its top down (`Entry.drains_iff`): one visit takes the head off that preorder, and leaves a stack
with one entry less in all (`Entry.preorderAll_of_visitTop?`, `Entry.sizeAll_of_visitTop?`), so
every walk comes to an end.

That a walk visits every entry once cannot be said of the entries alone, since equal ones may stand
in several places. A **place** says which child to go to, level by level; an entry has its places in
lexicographic order, where an outer place comes before those inside it (`Entry.places`), and the
walk visits what stands there, place by place (`Entry.Lists`). The lines of a tree are printed in
the same order, each indented by the length of its place (`Command.treeLinesAll_eq_zipWith`).

Main result: `Entry.walk_lists`.
-/

namespace FileRoutes

namespace Entry

/-! ### The stack -/

/-- Takes the top off a stack, which is its end, and puts the children of that entry on, the last
one first. -/
def visitTop? (stack : List Entry) : Option (Entry × List Entry) :=
  stack.getLast?.map fun e => (e, stack.dropLast ++ e.children.reverse)

/-- Visiting the top of a stack until it is empty visits these entries. -/
inductive Drains : (stack visited : List Entry) → Prop
  | empty {stack : List Entry} (h : visitTop? stack = none) : Drains stack []
  | visit {e : Entry} {stack left visited : List Entry} (h : visitTop? stack = some (e, left))
    (hleft : Drains left visited) : Drains stack (e :: visited)

variable {e : Entry} {stack left visited : List Entry}

theorem visitTop?_eq_none_iff : visitTop? stack = none ↔ stack = [] := by
  simp [visitTop?]

/-- The entry visited was on top, and its children are there in its stead. -/
theorem visitTop?_eq_some_iff :
    visitTop? stack = some (e, left) ↔
      ∃ below, stack = below ++ [e] ∧ left = below ++ e.children.reverse := by
  simp only [visitTop?, Option.map_eq_some_iff, Prod.mk.injEq, List.getLast?_eq_some_iff]
  constructor
  · rintro ⟨_, ⟨below, rfl⟩, rfl, rfl⟩
    exact ⟨below, rfl, by rw [List.dropLast_concat]⟩
  · rintro ⟨below, rfl, rfl⟩
    exact ⟨e, ⟨below, rfl⟩, rfl, by rw [List.dropLast_concat]⟩

/-- One visit takes the first entry off the preorder of a stack. -/
theorem preorderAll_of_visitTop? (h : visitTop? stack = some (e, left)) :
    preorderAll stack.reverse = e :: preorderAll left.reverse := by
  obtain ⟨below, rfl, rfl⟩ := visitTop?_eq_some_iff.1 h
  simp [preorder_eq]

/-- One visit leaves one entry less, nested ones included. -/
theorem sizeAll_of_visitTop? (h : visitTop? stack = some (e, left)) :
    sizeAll left.reverse + 1 = sizeAll stack.reverse := by
  obtain ⟨below, rfl, rfl⟩ := visitTop?_eq_some_iff.1 h
  simp [size_eq]
  omega

/-- **Every stack is drained**, and what is visited is its preorder from the top down. -/
theorem drains_iff : Drains stack visited ↔ visited = preorderAll stack.reverse := by
  constructor
  · intro h
    induction h with
    | empty h =>
      obtain rfl := visitTop?_eq_none_iff.1 h
      simp
    | visit h _ ih => rw [preorderAll_of_visitTop? h, ih]
  · rintro rfl
    -- on the number of entries that are still to be visited
    induction hsize : sizeAll stack.reverse generalizing stack with
    | zero =>
      cases htop : visitTop? stack with
      | none =>
        obtain rfl := visitTop?_eq_none_iff.1 htop
        simpa using Drains.empty htop
      | some pair => exact absurd (sizeAll_of_visitTop? htop) (by omega)
    | succ n ih =>
      cases htop : visitTop? stack with
      | none =>
        obtain rfl := visitTop?_eq_none_iff.1 htop
        simp at hsize
      | some pair =>
        rw [preorderAll_of_visitTop? htop]
        exact .visit htop (ih (by have := sizeAll_of_visitTop? htop; omega))

/-- A walk visits its entry, then walks through the children in order. -/
theorem walk_eq (e : Entry) : walk e = e :: e.children.flatMap walk := by
  rw [flatMap_walk, walk, walkStack_eq_preorderAll, preorderAll_cons, preorderAll_nil,
    List.append_nil, preorder_eq]

/-- A walk through a stack has as many entries as the stack. -/
theorem length_walkStack (stack : List Entry) : (walkStack stack).length = sizeAll stack := by
  induction stack using walkStack.induct with
  | case1 => simp [walkStack]
  | case2 e stack ih =>
    rw [walkStack, List.length_cons, ih, sizeAll_append, sizeAll_cons, size_eq]
    omega

/-- All entries of a configuration are counted. -/
theorem count_eq_sizeAll (entries : List Entry) : count entries = sizeAll entries := by
  rw [count, flatMap_walk, ← walkStack_eq_preorderAll, length_walkStack]

/-! ### Places -/

/-- The entry at a place inside another one: the place says which child to go to, level by level. -/
def entryAt? (e : Entry) : (place : List Nat) → Option Entry
  | [] => some e
  | i :: rest => e.children[i]?.bind fun child => child.entryAt? rest

/-- The entry at a place in a list of entries. -/
def entryIn? (entries : List Entry) : (place : List Nat) → Option Entry
  | [] => none
  | i :: rest => entries[i]?.bind fun e => e.entryAt? rest

mutual

/-- The places in an entry, outer ones before those inside, and earlier children first. -/
def places : Entry → List (List Nat)
  | ⟨_, _, _, children⟩ => [] :: placesFrom 0 children

/-- The places in a list of entries that are counted from `first`. -/
def placesFrom (first : Nat) : List Entry → List (List Nat)
  | [] => []
  | e :: rest => e.places.map (first :: ·) ++ placesFrom (first + 1) rest

end

/-- The first place is that of the entry itself. -/
theorem places_eq (e : Entry) : e.places = [] :: placesFrom 0 e.children := by
  cases e
  simp [places]

@[simp] theorem placesFrom_nil (first : Nat) : placesFrom first [] = [] := by simp [placesFrom]

@[simp] theorem placesFrom_cons (first : Nat) (e : Entry) (rest : List Entry) :
    placesFrom first (e :: rest) = e.places.map (first :: ·) ++ placesFrom (first + 1) rest := by
  simp [placesFrom]

/-- The places in a list of entries begin with their number in the list. -/
theorem exists_of_mem_placesFrom {first : Nat} {entries : List Entry} {place : List Nat}
    (h : place ∈ placesFrom first entries) : ∃ i rest, place = i :: rest ∧ first ≤ i := by
  induction entries generalizing first with
  | nil => simp at h
  | cons e others ih =>
    rw [placesFrom_cons, List.mem_append, List.mem_map] at h
    rcases h with ⟨rest, -, rfl⟩ | h
    · exact ⟨first, rest, rfl, le_rfl⟩
    · obtain ⟨i, rest, rfl, hi⟩ := ih h
      exact ⟨i, rest, rfl, by omega⟩

mutual

/-- The places in an entry are in order, and none occurs twice. -/
theorem pairwise_places : (e : Entry) → e.places.Pairwise (· < ·)
  | ⟨path, file, isIndex, children⟩ => by
    rw [places_eq, List.pairwise_cons]
    refine ⟨fun place hplace => ?_, pairwise_placesFrom 0 children⟩
    obtain ⟨i, rest, rfl, -⟩ := exists_of_mem_placesFrom hplace
    exact List.nil_lt_cons i rest

theorem pairwise_placesFrom (first : Nat) :
    (entries : List Entry) → (placesFrom first entries).Pairwise (· < ·)
  | [] => by simp
  | e :: others => by
    rw [placesFrom_cons, List.pairwise_append, List.pairwise_map]
    refine ⟨(pairwise_places e).imp fun h => List.cons_lt_cons_iff.2 (.inr ⟨rfl, h⟩),
      pairwise_placesFrom (first + 1) others, fun place hplace other hother => ?_⟩
    obtain ⟨rest, -, rfl⟩ := List.mem_map.1 hplace
    obtain ⟨i, rest', rfl, hi⟩ := exists_of_mem_placesFrom hother
    exact List.cons_lt_cons_iff.2 (.inl hi)

end

mutual

/-- The places in an entry are those where there is one. -/
theorem mem_places_iff : (e : Entry) → (place : List Nat) →
    (place ∈ e.places ↔ (e.entryAt? place).isSome = true)
  | ⟨path, file, isIndex, children⟩, [] => by simp [places_eq, entryAt?]
  | ⟨path, file, isIndex, children⟩, i :: rest => by
    have hchildren := mem_placesFrom_iff 0 children i rest
    rw [Nat.zero_add] at hchildren
    simp [places_eq, entryAt?, hchildren]

theorem mem_placesFrom_iff (first : Nat) : (entries : List Entry) → (i : Nat) →
    (rest : List Nat) → ((first + i) :: rest ∈ placesFrom first entries ↔
      (entries[i]?.bind fun e => e.entryAt? rest).isSome = true)
  | [], i, rest => by simp
  | e :: others, 0, rest => by
    have hlater : first :: rest ∉ placesFrom (first + 1) others := fun h => by
      obtain ⟨i, rest', heq, hi⟩ := exists_of_mem_placesFrom h
      obtain ⟨rfl, -⟩ := List.cons.inj heq
      omega
    simp [hlater, mem_places_iff e rest]
  | e :: others, i + 1, rest => by
    have hlater := mem_placesFrom_iff (first + 1) others i rest
    rw [Nat.add_right_comm, Nat.add_assoc] at hlater
    simp [hlater]

end

mutual

/-- What stands at the places in an entry is its preorder. -/
theorem map_entryAt?_places : (e : Entry) → e.places.map e.entryAt? = e.preorder.map some
  | ⟨path, file, isIndex, children⟩ => by
    have hchildren := map_entryIn?_placesFrom children []
    rw [List.nil_append, List.length_nil] at hchildren
    rw [places_eq, preorder_eq, List.map_cons, List.map_cons, ← hchildren]
    congr 1
    refine List.map_congr_left fun place hplace => ?_
    obtain ⟨i, rest, rfl, -⟩ := exists_of_mem_placesFrom hplace
    rfl

theorem map_entryIn?_placesFrom : (entries before : List Entry) →
    (placesFrom before.length entries).map (entryIn? (before ++ entries)) =
      (preorderAll entries).map some
  | [], before => by simp
  | e :: others, before => by
    have hlater := map_entryIn?_placesFrom others (before ++ [e])
    rw [List.length_append, List.length_singleton, List.append_assoc,
      List.singleton_append] at hlater
    rw [placesFrom_cons, List.map_append, List.map_map, hlater, preorderAll_cons, List.map_append,
      ← map_entryAt?_places e]
    congr 1
    refine List.map_congr_left fun place _ => ?_
    simp [entryIn?]

end

/-- These entries are what is found at the places, each place once and in their order. -/
structure Lists (find? : List Nat → Option Entry) (places : List (List Nat))
    (entries : List Entry) : Prop where
  pairwise : places.Pairwise (· < ·)
  mem_iff : ∀ place, place ∈ places ↔ (find? place).isSome = true
  map_eq : places.map find? = entries.map some

/-- The preorder of an entry lists what is inside. -/
theorem lists_preorder (e : Entry) : Lists e.entryAt? e.places e.preorder :=
  ⟨pairwise_places e, mem_places_iff e, map_entryAt?_places e⟩

/-- The preorder of a list of entries lists what is in it. -/
theorem lists_preorderAll (entries : List Entry) :
    Lists (entryIn? entries) (placesFrom 0 entries) (preorderAll entries) where
  pairwise := pairwise_placesFrom 0 entries
  mem_iff place := by
    cases place with
    | nil =>
      simp only [entryIn?, Option.isSome_none, Bool.false_eq_true, iff_false]
      intro h
      obtain ⟨i, rest, heq, -⟩ := exists_of_mem_placesFrom h
      cases heq
    | cons i rest => simpa [entryIn?] using mem_placesFrom_iff 0 entries i rest
  map_eq := map_entryIn?_placesFrom entries []

end Entry

/-! ### Lines -/

namespace Command

open Entry

mutual

/-- The lines of an entry stand at its places, and are indented by their length. -/
theorem treeLines_eq_zipWith (level : Nat) : (e : Entry) →
    treeLines level e =
      List.zipWith (fun place e => treeLine (level + place.length) e) e.places e.preorder
  | ⟨path, file, isIndex, children⟩ => by
    rw [places_eq, preorder_eq, List.zipWith_cons_cons,
      ← treeLinesAll_eq_zipWith level 0 children]
    simp [treeLines]

theorem treeLinesAll_eq_zipWith (level first : Nat) : (entries : List Entry) →
    treeLinesAll (level + 1) entries =
      List.zipWith (fun place e => treeLine (level + place.length) e) (placesFrom first entries)
        (preorderAll entries)
  | [] => by simp [treeLinesAll]
  | e :: others => by
    have hlength : (e.places.map (first :: ·)).length = e.preorder.length := by
      simpa using congrArg List.length (map_entryAt?_places e)
    rw [treeLinesAll, treeLines_eq_zipWith (level + 1) e,
      treeLinesAll_eq_zipWith level (first + 1) others, placesFrom_cons, preorderAll_cons,
      List.zipWith_append hlength, List.zipWith_map_left]
    simp only [List.length_cons, Nat.add_right_comm, Nat.add_assoc]

end

end Command

namespace Entry

/-- **A walk is the preorder.** The stack is drained for every entry, and what comes out is the
entry with the walks of its children after it, so every entry inside is visited at its place, once
and in the order of places. Walking through a list counts all its entries, and the lines of its tree
show what the walk visits, in that order and each once, indented by the length of its place. -/
theorem walk_lists (e : Entry) (entries : List Entry) :
    (∀ visited, Drains [e] visited ↔ visited = walk e) ∧
    walk e = e :: e.children.flatMap walk ∧
    Lists e.entryAt? e.places (walk e) ∧
    count entries = sizeAll entries ∧
    Lists (entryIn? entries) (placesFrom 0 entries) (entries.flatMap walk) ∧
    Command.treeLinesAll 1 entries =
      List.zipWith (fun place e => Command.treeLine place.length e) (placesFrom 0 entries)
        (entries.flatMap walk) := by
  have hwalk : walk e = e.preorder := by
    rw [walk, walkStack_eq_preorderAll, preorderAll_cons, preorderAll_nil, List.append_nil]
  have hlines := Command.treeLinesAll_eq_zipWith 0 0 entries
  simp only [Nat.zero_add] at hlines
  refine ⟨fun visited => ?_, walk_eq e, ?_, count_eq_sizeAll entries, ?_, ?_⟩
  · rw [drains_iff, walk, walkStack_eq_preorderAll, List.reverse_singleton]
  · rw [hwalk]
    exact lists_preorder e
  · rw [flatMap_walk]
    exact lists_preorderAll entries
  · rw [flatMap_walk]
    exact hlines

/-- Two equal pages in two places are visited twice. -/
example :
    let e := layout "root.tsx" [route "a" "a.tsx" [index "page.tsx"], index "page.tsx"]
    e.places = [[], [0], [0, 0], [1]] ∧
      Command.treeLinesAll 1 [e] =
        ["  [layout] root.tsx", "    a a.tsx", "      (index) page.tsx",
          "    (index) page.tsx"] := by
  decide +kernel

end Entry

end FileRoutes
