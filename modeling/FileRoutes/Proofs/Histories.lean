import FileRoutes.Proofs.Schedule

/-!
# Memories and what was done to them

What a memory answers follows from what was done to it. A **deed** puts a file or a directory in, or
makes a call; the deeds that succeeded, in their order, are all that a memory remembers
(`Memory.Remembers`). One deed at a time this goes from the empty memory to every other one
(`Memory.Remembers.after`, `Memory.Remembers.replay`): a file has the contents that it was given
last, the directories are those that deeds have made, and the count of writes counts the writes that
succeeded. Paths enter by their locations only, so no spelling matters.

A directory that is stored lists the names under which something is stored in it, each once as a
directory and once as a file at most (`Memory.Reachable.listings_agree`).

Main results: `Memory.Reachable.listings_agree` and `Memory.replay_history`.
-/

namespace FileRoutes

/-- A name that leads one level down: a name of an entry that is not made of dots only. -/
def IsOrdinary (name : String) : Prop :=
  IsName name ∧ name ≠ "." ∧ name ≠ ".."

instance (name : String) : Decidable (IsOrdinary name) :=
  inferInstanceAs (Decidable (_ ∧ _))

/-- An ordinary name leads to the child of that name. -/
theorem IsOrdinary.location_join {name : String} (h : IsOrdinary name) (path : Path) :
    (path.join name).location = path.location.child name := by
  obtain ⟨⟨hne, hslash⟩, hdot, -⟩ := h
  have hrelative : Path.isAbsolute ⟨name⟩ = false := by
    rw [Bool.eq_false_iff, Path.isAbsolute, ne_eq, List.isPrefixOf_iff_prefix]
    exact fun hbegins => hslash (hbegins.subset List.mem_cons_self)
  rw [Path.location_join path hrelative, Path.namesOf_of_not_mem hslash hne]
  simp [Location.child, hdot]

/-- The locations that hold `l` are those above it. -/
theorem Location.mem_withAncestors_iff_below {l k : Location} :
    k ∈ l.withAncestors ↔ k.isEmpty = false ∧ k.Below l := by
  refine ⟨fun h => ⟨(mem_withAncestors_iff.1 h).1, names_prefix_of_mem_withAncestors h⟩, ?_⟩
  rintro ⟨hempty, habsolute, hbegins⟩
  exact mem_withAncestors_iff.2
    ⟨hempty, habsolute, k.names.length, hbegins.length_le, List.prefix_iff_eq_take.1 hbegins⟩

/-- What is properly above a location is above the one that holds it. -/
theorem Location.below_and_ne_iff {l k : Location} :
    l.Below k ∧ l ≠ k ↔ ∃ parent, k.parent? = some parent ∧ l.Below parent := by
  cases hparent : k.parent? with
  | none =>
    have hnames : k.names = [] := by simpa [parent?] using hparent
    simp only [reduceCtorEq, false_and, exists_false, iff_false, not_and, not_not]
    rintro ⟨habsolute, hbegins⟩
    rw [hnames, List.prefix_nil] at hbegins
    cases l
    cases k
    simp_all
  | some parent =>
    obtain ⟨name, rfl⟩ := eq_child_of_parent? hparent
    have hself : ∀ l : Location, l.Below parent → l ≠ parent.child name := by
      rintro _ ⟨-, hbegins⟩ rfl
      simpa [child, Nat.not_succ_le_self] using hbegins.length_le
    simp only [Option.some.injEq, exists_eq_left']
    constructor
    · rintro ⟨⟨habsolute, hbegins⟩, hne⟩
      refine ⟨habsolute, (List.prefix_concat_iff.1 hbegins).resolve_left fun hnames => hne ?_⟩
      cases l
      simp_all [child]
    · exact fun h => ⟨⟨h.1, h.2.trans (List.prefix_append _ _)⟩, hself l h⟩

namespace Memory

/-! ### Listings -/

section Listings

variable {m : Memory} {path : Path} {listing : List Listed}

theorem inNameOrder_trans (a b c : Listed) (hab : inNameOrder a b = true)
    (hbc : inNameOrder b c = true) : inNameOrder a c = true := by
  simp only [inNameOrder, decide_eq_true_eq] at hab hbc ⊢
  exact String.le_trans hab hbc

theorem inNameOrder_total (a b : Listed) : (inNameOrder a b || inNameOrder b a) = true := by
  simpa [inNameOrder] using String.le_total a.name b.name

/-- A listing is sorted by name. -/
theorem pairwise_list (h : m.list path = .ok listing) :
    listing.Pairwise fun a b => a.name ≤ b.name := by
  obtain ⟨-, rfl⟩ := list_eq_ok_iff.1 h
  exact (pairwise_stableSort inNameOrder_trans inNameOrder_total _).imp
    fun hab => by simpa [inNameOrder] using hab

/-- The listed names are ordinary. -/
theorem WellFormed.isOrdinary_of_mem_list (h : m.WellFormed) (hlist : m.list path = .ok listing)
    {e : Listed} (he : e ∈ listing) : IsOrdinary e.name := by
  obtain ⟨hname, hdot⟩ := isName_of_list h.lawful hlist e he
  exact ⟨hname, hdot, ((mem_list_iff hlist).1 he).1⟩

/-- An ordinary name is listed as what is stored under it. -/
theorem mem_list_iff_of_isOrdinary (hlist : m.list path = .ok listing) {name : String}
    (hname : IsOrdinary name) (isDirectory : Bool) :
    ⟨name, isDirectory⟩ ∈ listing ↔
      (if isDirectory then m.isDirectory (path.join name).location
        else m.isFile (path.join name).location) = true := by
  rw [mem_list_iff hlist, hname.location_join]
  cases isDirectory <;> simp [isDirectory_iff, isFile_iff, hname.2.2]

/-- **Listings agree with what is stored.** What holds something stored is a stored directory,
unless it is empty. A stored directory lists in order of names: an ordinary name once as a directory
if one is stored under it, and once as a file if one is. So something is stored under a name if the
name is listed, and every directory that is listed can be listed in turn. -/
theorem Reachable.listings_agree (h : m.Reachable) :
    (∀ l, m.Stores l → ∀ parent, l.parent? = some parent → parent.isEmpty = false →
      m.isDirectory parent = true) ∧
    ∀ path : Path, m.isDirectory path.location = true →
      ∃ listing, m.list path = .ok listing ∧
        (listing.Pairwise fun a b => a.name ≤ b.name) ∧
        (∀ name, IsOrdinary name →
          listing.count ⟨name, true⟩ =
            (if m.isDirectory (path.join name).location then 1 else 0) ∧
          listing.count ⟨name, false⟩ =
            (if m.isFile (path.join name).location then 1 else 0) ∧
          (m.contains (path.join name) = true ↔ ∃ e ∈ listing, e.name = name)) ∧
        ∀ e ∈ listing, e.isDirectory = true → ∃ below, m.list (path.join e.name) = .ok below := by
  have hwell := h.wellFormed
  constructor
  · intro l hl parent hparent hempty
    rcases hwell.parent l hl parent hparent with hnone | hmem
    · exact absurd (hempty.symm.trans hnone) Bool.false_ne_true
    · exact isDirectory_iff.2 hmem
  · intro path hpath
    have hlist : m.list path = .ok (stableSort inNameOrder (m.entriesOf path.location)) :=
      list_eq_ok_iff.2 ⟨isDirectory_iff.1 hpath, rfl⟩
    generalize stableSort inNameOrder (m.entriesOf path.location) = listing at hlist
    refine ⟨listing, hlist, pairwise_list hlist, fun name hname => ⟨?_, ?_, ?_⟩, ?_⟩
    · simp [(hwell.lawful_list hlist).nodup.count, mem_list_iff_of_isOrdinary hlist hname]
    · simp [(hwell.lawful_list hlist).nodup.count, mem_list_iff_of_isOrdinary hlist hname]
    · have hdirectory := mem_list_iff_of_isOrdinary hlist hname true
      have hfile := mem_list_iff_of_isOrdinary hlist hname false
      simp only [if_true, Bool.false_eq_true, if_false] at hdirectory hfile
      rw [contains, Bool.or_eq_true, ← hdirectory, ← hfile]
      constructor
      · rintro (he | he) <;> exact ⟨_, he, rfl⟩
      · rintro ⟨⟨_, _ | _⟩, he, rfl⟩
        · exact .inr he
        · exact .inl he
    · intro e he hdirectory
      obtain ⟨name, isDirectory⟩ := e
      obtain rfl : isDirectory = true := hdirectory
      have hname := hwell.isOrdinary_of_mem_list hlist he
      have hstored := (mem_list_iff_of_isOrdinary hlist hname true).1 he
      exact ⟨_, list_eq_ok_iff.2 ⟨isDirectory_iff.1 hstored, rfl⟩⟩

/-- In a reachable memory that holds the directory `app/routes`, its listing has `users` once. -/
theorem Reachable.listings_agree_users : users.Reachable ∧
    ∃ listing, users.list ⟨"./app//routes"⟩ = .ok listing ∧
      listing.count ⟨"users", true⟩ = 1 ∧ listing.count ⟨"users", false⟩ = 0 := by
  have hreachable : users.Reachable := reachable_ofFiles _
  obtain ⟨listing, hlist, -, hcount, -⟩ :=
    (Reachable.listings_agree hreachable).2 ⟨"./app//routes"⟩ (by decide +kernel)
  obtain ⟨hdirectory, hfile, -⟩ := hcount "users" (by decide)
  rw [if_pos (by decide +kernel)] at hdirectory
  rw [if_neg (by decide +kernel)] at hfile
  exact ⟨hreachable, listing, hlist, hdirectory, hfile⟩

end Listings

end Memory

/-! ### Deeds -/

/-- What can be done to a memory. -/
inductive Deed where
  /-- A file is put in, with all its ancestors. -/
  | insertFile (path : Path) (contents : String)
  /-- A directory is put in, with all its ancestors. -/
  | insertDirectory (path : Path)
  /-- A call is made. -/
  | call (c : Call)
deriving DecidableEq, Repr

namespace Deed

/-- The contents that a deed gives to the file at a location. -/
def gives? (l : Location) : Deed → Option String
  | insertFile path contents => if path.location = l then some contents else none
  | call (.write path contents) => if path.location = l then some contents else none
  | _ => none

/-- A deed makes a directory: it asks for it or for something below, or puts a file below it. -/
def Makes (l : Location) : Deed → Prop
  | insertFile path _ => l.Below path.location ∧ l ≠ path.location
  | insertDirectory path => l.Below path.location
  | call (.makeDirectory path) => l.Below path.location
  | _ => False

/-- The deed is a call that writes. -/
def isWrite : Deed → Bool
  | call (.write _ _) => true
  | _ => false

end Deed

namespace Memory

variable {m : Memory} {past : List Deed}

/-- The memory after a deed. -/
def after (m : Memory) : Deed → Memory
  | .insertFile path contents => m.insertFile path contents
  | .insertDirectory path => m.insertDirectory path
  | .call c => (storage.answer c m).2

/-- The memory lets a deed succeed: only a call can fail. -/
def grants (m : Memory) : Deed → Bool
  | .call c => (storage.answer c m).1.isOk
  | _ => true

/-- The memory after some deeds, one after the other. -/
def replay (m : Memory) (deeds : List Deed) : Memory :=
  deeds.foldl after m

/-- Those of some deeds that succeed, one done after the other. -/
def granted (m : Memory) : List Deed → List Deed
  | [] => []
  | d :: rest => if m.grants d then d :: (m.after d).granted rest else (m.after d).granted rest

/-- A deed leads from a reachable memory to a reachable one. -/
theorem Reachable.after (h : m.Reachable) (d : Deed) : (m.after d).Reachable := by
  cases d with
  | insertFile path contents => exact h.insertFile path contents
  | insertDirectory path => exact h.insertDirectory path
  | call c => exact h.call c

/-- Deeds lead from reachable memories to reachable ones. -/
theorem Reachable.replay (h : m.Reachable) (deeds : List Deed) : (m.replay deeds).Reachable := by
  induction deeds generalizing m with
  | nil => exact h
  | cons d rest ih => exact ih (h.after d)

/-! ### What a memory remembers -/

/-- What a memory holds is what the deeds `past` that succeeded, oldest first, have put there. -/
structure Remembers (past : List Deed) (m : Memory) : Prop where
  lookup : ∀ l, m.files.lookup l = past.reverse.findSome? (Deed.gives? l)
  isDirectory_iff : ∀ l, m.isDirectory l = true ↔ l.isEmpty = false ∧ ∃ d ∈ past, d.Makes l
  writes : m.writes = past.countP Deed.isWrite

theorem remembers_empty : Remembers [] {} where
  lookup _ := rfl
  isDirectory_iff _ := by simp [isDirectory]
  writes := rfl

/-- A deed is remembered by what it does: whose contents it gives, which directories it makes, and
whether it writes. -/
theorem Remembers.snoc (h : m.Remembers past) {m' : Memory} {d : Deed}
    (hlookup : ∀ l, m'.files.lookup l = (d.gives? l).or (m.files.lookup l))
    (hdirectory : ∀ l, m'.isDirectory l = true ↔
      l.isEmpty = false ∧ d.Makes l ∨ m.isDirectory l = true)
    (hwrites : m'.writes = m.writes + if d.isWrite then 1 else 0) :
    m'.Remembers (past ++ [d]) where
  lookup l := by
    rw [hlookup, h.lookup, List.reverse_append, List.findSome?_append]
    simp
  isDirectory_iff l := by
    rw [hdirectory, h.isDirectory_iff]
    simp only [List.mem_append, List.mem_singleton, or_and_right, exists_or, exists_eq_left]
    rw [and_or_left, or_comm]
  writes := by
    rw [hwrites, h.writes, List.countP_append, List.countP_singleton]

/-- Contents that are set are those of one location. -/
theorem lookup_setContents_eq_or (l k : Location) (contents : String)
    (files : List (Location × String)) :
    (setContents l contents files).lookup k =
      (if l = k then some contents else none).or (files.lookup k) := by
  by_cases hk : l = k
  · subst hk
    simp [lookup_setContents]
  · simp [hk, lookup_setContents_of_ne (Ne.symm hk)]

/-- Making a directory writes nothing. -/
@[simp] theorem writes_insertDirectoryAt (m : Memory) (l : Location) :
    (m.insertDirectoryAt l).writes = m.writes := by
  unfold insertDirectoryAt
  induction l.withAncestors generalizing m with
  | nil => rfl
  | cons a rest ih =>
    rw [List.foldl_cons, ih]
    unfold addDirectory
    split <;> rfl

/-- A directory that is made is remembered with those that hold it. -/
theorem Remembers.insertDirectory (h : m.Remembers past) {path : Path} {d : Deed}
    (hgives : ∀ l, d.gives? l = none) (hmakes : ∀ l, d.Makes l ↔ l.Below path.location)
    (hwrite : d.isWrite = false) : (m.insertDirectory path).Remembers (past ++ [d]) := by
  refine h.snoc (fun l => ?_) (fun l => ?_) ?_
  · simp [Memory.insertDirectory, hgives]
  · rw [Memory.insertDirectory, isDirectory_insertDirectoryAt_iff,
      Location.mem_withAncestors_iff_below, hmakes]
  · simp [Memory.insertDirectory, hwrite]

/-- A file that is put in makes the directories properly above it. -/
theorem isDirectory_insertFile_iff {path : Path} {contents : String} {l : Location} :
    (m.insertFile path contents).isDirectory l = true ↔
      l.isEmpty = false ∧ (l.Below path.location ∧ l ≠ path.location) ∨
        m.isDirectory l = true := by
  rw [Location.below_and_ne_iff]
  unfold Memory.insertFile insertFileAt
  cases path.location.parent? with
  | none =>
    change m.isDirectory l = true ↔ _
    simp
  | some parent =>
    change (m.insertDirectoryAt parent).isDirectory l = true ↔ _
    rw [isDirectory_insertDirectoryAt_iff, Location.mem_withAncestors_iff_below]
    simp

/-- A file that is put in is remembered with the directories that hold it. -/
theorem Remembers.insertFile (h : m.Remembers past) (path : Path) (contents : String) :
    (m.insertFile path contents).Remembers (past ++ [.insertFile path contents]) := by
  refine h.snoc (fun l => ?_) (fun l => isDirectory_insertFile_iff) ?_
  · have hfiles : (m.insertFile path contents).files =
        setContents path.location contents m.files := by
      unfold Memory.insertFile insertFileAt
      split <;> simp
    rw [hfiles, lookup_setContents_eq_or]
    rfl
  · unfold Memory.insertFile insertFileAt
    split <;> simp [Deed.isWrite]

/-- A write succeeds where a directory takes the file, and then changes the contents of the file
and the count. -/
theorem grants_write_iff {path : Path} {contents : String} :
    m.grants (.call (.write path contents)) = true ↔
      ∃ parent, path.location.parent? = some parent ∧ m.takesFiles parent = true := by
  cases hwrite : m.write path contents with
  | ok written =>
    simp only [(write_eq_ok_iff.1 hwrite).1, iff_true]
    simp [grants, Storage.answer, storage, StateT.run, hwrite, Except.isOk, Except.toBool]
  | error f =>
    have hnone := fun h => write_eq_ok_iff.2 ⟨h, rfl⟩ |>.symm.trans hwrite
    simp only [reduceCtorEq, imp_false] at hnone
    simp only [hnone, iff_false]
    simp [grants, Storage.answer, storage, StateT.run, hwrite, Except.isOk, Except.toBool]

/-- A write changes the contents of the file and the count if it succeeds, and else nothing. -/
theorem after_write (m : Memory) (path : Path) (contents : String) :
    m.after (.call (.write path contents)) =
      if m.grants (.call (.write path contents)) then
        { m with files := setContents path.location contents m.files, writes := m.writes + 1 }
      else m := by
  cases hwrite : m.write path contents with
  | ok written =>
    obtain ⟨hparent, rfl⟩ := write_eq_ok_iff.1 hwrite
    rw [if_pos (grants_write_iff.2 hparent)]
    simp [after, Storage.answer, storage, StateT.run, hwrite]
  | error f =>
    have hfails : m.grants (.call (.write path contents)) = false := by
      simp [grants, Storage.answer, storage, StateT.run, hwrite, Except.isOk, Except.toBool]
    rw [if_neg (by simp [hfails])]
    simp [after, Storage.answer, storage, StateT.run, hwrite]

/-- A deed that fails changes nothing. -/
theorem after_of_grants_eq_false {d : Deed} (h : m.grants d = false) : m.after d = m := by
  cases d with
  | insertFile path contents => cases h
  | insertDirectory path => cases h
  | call c =>
    cases c with
    | list path => rfl
    | probe path => rfl
    | makeDirectory path => cases h
    | write path contents => rw [after_write, if_neg (by simp [h])]

/-- One deed is remembered if it succeeds, and leaves no trace if it fails. -/
theorem Remembers.after (h : m.Remembers past) (d : Deed) :
    (m.after d).Remembers (past ++ if m.grants d then [d] else []) := by
  cases hgrants : m.grants d with
  | false => simpa [after_of_grants_eq_false hgrants] using h
  | true =>
    rw [if_pos rfl]
    cases d with
    | insertFile path contents => exact h.insertFile path contents
    | insertDirectory path => exact h.insertDirectory (fun _ => rfl) (fun _ => Iff.rfl) rfl
    | call c =>
      cases c with
      | list path => exact h.snoc (fun _ => rfl) (fun _ => (or_iff_right And.right).symm) rfl
      | probe path => exact h.snoc (fun _ => rfl) (fun _ => (or_iff_right And.right).symm) rfl
      | makeDirectory path =>
        have hmade : m.after (.call (.makeDirectory path)) = m.insertDirectory path := rfl
        rw [hmade]
        exact h.insertDirectory (fun _ => rfl) (fun _ => Iff.rfl) rfl
      | write path contents =>
        rw [after_write, if_pos hgrants]
        exact h.snoc (fun _ => lookup_setContents_eq_or _ _ _ _)
          (fun _ => (or_iff_right And.right).symm) rfl

/-- After some deeds a memory remembers those that succeeded as well. -/
theorem Remembers.replay (h : m.Remembers past) (deeds : List Deed) :
    (m.replay deeds).Remembers (past ++ m.granted deeds) := by
  induction deeds generalizing m past with
  | nil => simpa [Memory.replay, granted] using h
  | cons d rest ih =>
    have hrest : (m.replay (d :: rest)).Remembers _ := ih (h.after d)
    unfold granted
    split <;> simp_all

/-- The deeds that put some files in. -/
def insertions (files : List (Path × String)) : List Deed :=
  files.map fun file => .insertFile file.1 file.2

/-- The tree of some files is what putting them in leads to, and every one of them is put in. -/
theorem ofFiles_eq_replay (files : List (Path × String)) :
    ofFiles files = ({} : Memory).replay (insertions files) := by
  rw [replay, insertions, List.foldl_map]
  rfl

theorem granted_insertions (m : Memory) (files : List (Path × String)) :
    m.granted (insertions files) = insertions files := by
  induction files generalizing m with
  | nil => rfl
  | cons file rest ih => exact congrArg (_ :: ·) (ih _)

/-- What succeeded when some files were put in and deeds were done after that, oldest first. -/
def history (files : List (Path × String)) (deeds : List Deed) : List Deed :=
  insertions files ++ (ofFiles files).granted deeds

theorem remembers_history (files : List (Path × String)) (deeds : List Deed) :
    ((ofFiles files).replay deeds).Remembers (history files deeds) := by
  have hfiles := remembers_empty.replay (insertions files)
  rw [granted_insertions, ← ofFiles_eq_replay] at hfiles
  exact hfiles.replay deeds

/-- A file is there if it was given contents. -/
theorem Remembers.isFile_iff (h : m.Remembers past) (l : Location) :
    m.isFile l = true ↔ ∃ d ∈ past, (d.gives? l).isSome = true := by
  have hlookup : m.isFile l = true ↔ (m.files.lookup l).isSome = true := by
    simp [Memory.isFile, List.lookup_isSome_iff, eq_comm (a := l)]
  rw [hlookup, h.lookup, List.findSome?_isSome_iff]
  simp

/-- **A memory is determined by what was done to it.** After some files were put in and any deeds
were done, a file has the contents that the latest deed gave it, a path leads to something if
contents were given there or a deed has made a directory there, the count of writes counts the
writes that succeeded, and a write that fails changes nothing. -/
theorem replay_history (files : List (Path × String)) (deeds : List Deed) :
    (∀ p : Path, ((ofFiles files).replay deeds).read? p =
      (history files deeds).reverse.findSome? (Deed.gives? p.location)) ∧
    (∀ p : Path, ((ofFiles files).replay deeds).contains p = true ↔
      (∃ d ∈ history files deeds, (d.gives? p.location).isSome = true) ∨
        p.location.isEmpty = false ∧ ∃ d ∈ history files deeds, d.Makes p.location) ∧
    ((ofFiles files).replay deeds).writes = (history files deeds).countP Deed.isWrite ∧
    ∀ path contents, ((ofFiles files).replay deeds).grants (.call (.write path contents)) = false →
      ((ofFiles files).replay deeds).after (.call (.write path contents)) =
        (ofFiles files).replay deeds := by
  have h := remembers_history files deeds
  refine ⟨fun p => h.lookup p.location, fun p => ?_, h.writes, fun _ _ => after_of_grants_eq_false⟩
  rw [contains, Bool.or_eq_true, h.isDirectory_iff, h.isFile_iff, or_comm]

/-- Whether a write succeeds follows from what was done before: it needs a directory that was made,
or the top. -/
theorem grants_write_history (files : List (Path × String)) (deeds : List Deed) (path : Path)
    (contents : String) :
    ((ofFiles files).replay deeds).grants (.call (.write path contents)) = true ↔
      ∃ parent, path.location.parent? = some parent ∧
        (parent.isEmpty = true ∨ ∃ d ∈ history files deeds, d.Makes parent) := by
  rw [grants_write_iff]
  refine exists_congr fun parent => and_congr_right fun _ => ?_
  rw [takesFiles, Bool.or_eq_true, (remembers_history files deeds).isDirectory_iff]
  cases parent.isEmpty <;> simp

/-- Without its directory a write fails, and is forgotten. -/
example : history [] [.call (.write ⟨"app/.cache/root.tsx"⟩ "x"),
      .call (.makeDirectory ⟨"app/.cache"⟩), .call (.write ⟨"./app/.cache//root.tsx"⟩ "x")] =
    [.call (.makeDirectory ⟨"app/.cache"⟩), .call (.write ⟨"./app/.cache//root.tsx"⟩ "x")] := by
  decide +kernel

end Memory

end FileRoutes
