import FileRoutes.Proofs.Spellings
import FileRoutes.Storage.Disk

/-!
# Making directories and files on a disk

What a disk does with the shortest path of a location, as long as the location is one that a disk
takes (`Location.Fits`): no name on it is `..`, and neither a name nor the path is too long. Such a
path is followed name by name through directories (`Disk.follow_of_isDir`), and stops with nothing
found at the first name under which there is nothing (`Disk.follow_of_not_isDir`).

Making a directory first asks for the directory itself, and only where that finds nothing for those
above it, so the induction is on how much of the path is made (`Disk.exists_makeLine`). Where no
file is in the way a disk gains just the directories on the path (`Disk.exists_makeDirectory`). A
file is refused where there is a directory (`Disk.write_of_isDir`), and written anywhere else in one
(`Disk.write_of_not_isDir`).
-/

namespace FileRoutes

/-! ### The shortest path of a location -/

section Paths

variable {absolute : Bool} {names : List String}

/-- The names on a path are those that it was put together from. -/
theorem Path.names_ofComponents (absolute : Bool) (h : ∀ name ∈ names, IsName name) :
    (ofComponents absolute names).names = names := by
  have hnames : namesOf ("/".intercalate names) = names := by
    rw [intercalate_eq_pathBelow h, namesOf_pathBelow h, namesOf_empty, List.nil_append]
  cases absolute with
  | false => simpa [Path.names, ofComponents] using hnames
  | true =>
    have hslash := namesOf_append_slash "" ("/".intercalate names)
    simpa [Path.names, ofComponents, hnames] using hslash

theorem Path.isAbsolute_ofComponents (absolute : Bool) (h : ∀ name ∈ names, IsName name) :
    (ofComponents absolute names).isAbsolute = absolute := by
  cases absolute with
  | false =>
    have hrelative : Path.isAbsolute ⟨pathBelow "" names⟩ = false := isAbsolute_pathBelow rfl h
    rw [← intercalate_eq_pathBelow h] at hrelative
    simpa [ofComponents] using hrelative
  | true => simp [isAbsolute, ofComponents, List.isPrefixOf]

theorem Path.text_ofComponents_ne (hne : absolute = true ∨ names ≠ [])
    (h : ∀ name ∈ names, IsName name) : (ofComponents absolute names).text ≠ "" := by
  intro htext
  have habsolute := isAbsolute_ofComponents absolute h
  have hnames := names_ofComponents absolute h
  have hempty : ofComponents absolute names = ⟨""⟩ := by
    cases hpath : ofComponents absolute names
    simp_all
  rw [hempty] at habsolute hnames
  rcases hne with rfl | hne
  · cases habsolute
  · exact hne (hnames.symm.trans namesOf_empty)

theorem Path.endsInSlash_ofComponents (absolute : Bool) (hne : names ≠ [])
    (h : ∀ name ∈ names, IsName name) : (ofComponents absolute names).endsInSlash = false := by
  have htext : (ofComponents false names).text ≠ "" := text_ofComponents_ne (.inr hne) h
  have hchars : ("/".intercalate names).toList ≠ [] := fun hnone =>
    htext (String.toList_inj.1 (by simpa [ofComponents] using hnone))
  rw [Bool.eq_false_iff, endsInSlash, ne_eq, List.isSuffixOf_iff_suffix]
  rintro ⟨front, hfront⟩
  have hlast : (ofComponents absolute names).text.toList.getLast? = some '/' := by
    rw [← hfront, List.getLast?_concat]
  rw [ofComponents, String.toList_append, List.getLast?_append_of_ne_nil _ hchars] at hlast
  exact (head?_and_getLast?_intercalate h).2 hlast

theorem Path.components_ofComponents (absolute : Bool)
    (h : ∀ name ∈ names, IsName name ∧ name ≠ ".") :
    (ofComponents absolute names).components = names := by
  have hfilter : names.filter (· ≠ ".") = names :=
    List.filter_eq_self.2 fun name hname => by simpa using (h name hname).2
  unfold components
  rw [names_ofComponents absolute fun name hname => (h name hname).1]
  split
  · exact absurd rfl (h "." List.mem_cons_self).2
  · exact hfilter

/-- The paths on the way to a place, from that of the first `n` names up. -/
def Path.line (absolute : Bool) (names : List String) : Nat → List Path
  | 0 => if absolute then [ofComponents true []] else []
  | n + 1 => ofComponents absolute (names.take (n + 1)) :: line absolute names n

theorem Path.line_eq (absolute : Bool) (names : List String) (n : Nat) :
    line absolute names n =
      let above := (List.range (n + 1)).reverse.map fun k => ofComponents absolute (names.take k)
      if absolute then above else above.dropLast := by
  induction n with
  | zero => cases absolute <;> rfl
  | succ n ih =>
    rw [line, ih, List.range_succ (n := n + 1), List.reverse_concat, List.map_cons]
    cases absolute with
    | true => rfl
    | false =>
      have hne :
          (List.range (n + 1)).reverse.map (fun k => ofComponents false (names.take k)) ≠ [] := by
        simp
      simp only [Bool.false_eq_true, if_false, List.dropLast_cons_of_ne_nil hne]

/-- A path and its ancestors are those on the way to it. -/
theorem Path.cons_ancestors_ofComponents (hne : absolute = true ∨ names ≠ [])
    (h : ∀ name ∈ names, IsName name ∧ name ≠ ".") :
    ofComponents absolute names :: (ofComponents absolute names).ancestors =
      line absolute names names.length := by
  have hlast : ofComponents absolute names = ofComponents absolute (names.take names.length) := by
    rw [List.take_length]
  rw [line_eq, List.range_succ, List.reverse_concat, List.map_cons, ← hlast, ancestors,
    components_ofComponents absolute h,
    isAbsolute_ofComponents absolute fun name hname => (h name hname).1]
  cases absolute with
  | true => rfl
  | false =>
    have hmore : (List.range names.length).reverse.map
        (fun k => ofComponents false (names.take k)) ≠ [] := by
      simpa using hne
    simp only [Bool.false_eq_true, if_false, List.dropLast_cons_of_ne_nil hmore]

end Paths

theorem Location.isEmpty_eq_false_iff {l : Location} :
    l.isEmpty = false ↔ l.absolute = true ∨ l.names ≠ [] := by
  simp [isEmpty, Classical.or_iff_not_imp_left]

/-- A location that a disk takes: no name leads upwards, and neither a name nor the path is too long
or cannot be written down. -/
structure Location.Fits (l : Location) : Prop where
  names : ∀ name ∈ l.names, name ≠ ".." ∧ name.utf8ByteSize ≤ Disk.nameBound
  size : l.text.utf8ByteSize ≤ Disk.pathBound
  text : l.text.toList.contains '\x00' = false

instance (l : Location) : Decidable l.Fits :=
  decidable_of_iff
    ((∀ name ∈ l.names, name ≠ ".." ∧ name.utf8ByteSize ≤ Disk.nameBound) ∧
      l.text.utf8ByteSize ≤ Disk.pathBound ∧ l.text.toList.contains '\x00' = false)
    ⟨fun h => ⟨h.1, h.2.1, h.2.2⟩, fun h => ⟨h.names, h.size, h.text⟩⟩

namespace Disk

variable {d made : Disk} {place names : List String} {l : Location}

/-! ### Following names -/

/-- The place is that of a directory. -/
def IsDir (d : Disk) (place : List String) : Prop :=
  place = [] ∨ place ∈ d.dirs

/-- The places of the files. -/
def filePlaces (d : Disk) : List (List String) :=
  d.files.map Prod.fst

/-- Where the names of a path are followed from. -/
def base (d : Disk) (absolute : Bool) : List String :=
  if absolute then [] else d.here

theorem spotAt_of_isDir (h : d.IsDir place) : d.spotAt place = .directory place := by
  rcases h with rfl | h
  · rfl
  · simp [spotAt, h]

theorem spotAt_of_not_isDir (h : ¬ d.IsDir place) :
    d.spotAt place = if place ∈ d.filePlaces then .file place else .free place := by
  rw [IsDir, not_or] at h
  have hdir : (place.isEmpty || d.dirs.contains place) = false := by simp [h.1, h.2]
  have hfile : (d.files.any fun file => file.1 = place) = true ↔ place ∈ d.filePlaces := by
    simp [filePlaces]
  rw [spotAt, hdir, if_neg Bool.false_ne_true]
  exact if_congr hfile rfl rfl

/-- A name that a disk takes leads to what is there. -/
theorem step_eq {name : String} (place : List String)
    (h : name ≠ "." ∧ name ≠ ".." ∧ name.utf8ByteSize ≤ nameBound) :
    d.step place name = .ok (d.spotAt (place ++ [name])) := by
  obtain ⟨hdot, hup, hsize⟩ := h
  simp [step, hdot, hup, Nat.not_lt.2 hsize]

/-- Names that lead through directories lead to what is there in the end. -/
theorem follow_of_isDir
    (hnames : ∀ name ∈ names, name ≠ "." ∧ name ≠ ".." ∧ name.utf8ByteSize ≤ nameBound)
    (hne : names ≠ [])
    (hway : ∀ n, 0 < n → n < names.length → d.IsDir (place ++ names.take n)) :
    d.follow names place = .ok (d.spotAt (place ++ names)) := by
  induction names generalizing place with
  | nil => exact absurd rfl hne
  | cons name rest ih =>
    have hstep := step_eq (d := d) place (hnames name List.mem_cons_self)
    cases rest with
    | nil => rw [follow, hstep]
    | cons next more =>
      have hfirst : d.IsDir (place ++ [name]) := hway 1 (by omega) (by simp)
      rw [follow, hstep, spotAt_of_isDir hfirst]
      · have hfurther : ∀ n, 0 < n → n < (next :: more).length →
            d.IsDir (place ++ [name] ++ (next :: more).take n) := fun n hn hlength => by
          simpa using hway (n + 1) (by omega) (by simpa using hlength)
        have hrest := ih (fun name hname => hnames name (List.mem_cons_of_mem _ hname))
          (List.cons_ne_nil next more) hfurther
        simpa using hrest
      · simp

/-- Names among which one leads to nothing, and none but the last to a file, find nothing. -/
theorem follow_of_not_isDir
    (hnames : ∀ name ∈ names, name ≠ "." ∧ name ≠ ".." ∧ name.utf8ByteSize ≤ nameBound)
    (hfree : ∀ n, 0 < n → n < names.length → place ++ names.take n ∉ d.filePlaces)
    (hgap : ∃ n, 0 < n ∧ n < names.length ∧ ¬ d.IsDir (place ++ names.take n)) :
    d.follow names place = .error .notFound := by
  induction names generalizing place with
  | nil => simp at hgap
  | cons name rest ih =>
    have hstep := step_eq (d := d) place (hnames name List.mem_cons_self)
    cases rest with
    | nil =>
      obtain ⟨n, hn, hlength, -⟩ := hgap
      simp at hlength
      omega
    | cons next more =>
      rw [follow, hstep]
      · by_cases hfirst : d.IsDir (place ++ [name])
        · rw [spotAt_of_isDir hfirst]
          refine ih (fun name hname => hnames name (List.mem_cons_of_mem _ hname))
            (fun n hn hlength => ?_) ?_
          · simpa using hfree (n + 1) (by omega) (by simpa using hlength)
          · obtain ⟨n, hn, hlength, hnot⟩ := hgap
            -- the gap is not at the first name, so it is further on
            obtain ⟨n, rfl⟩ := Nat.exists_eq_add_of_lt hn
            rw [Nat.zero_add] at hlength hnot
            cases n with
            | zero => exact absurd hfirst (by simpa using hnot)
            | succ n => exact ⟨n + 1, by omega, by simpa using hlength, by simpa using hnot⟩
        · have hnone : place ++ [name] ∉ d.filePlaces := hfree 1 (by omega) (by simp)
          rw [spotAt_of_not_isDir hfirst, if_neg hnone]
      · simp

/-- The shortest path of a location leads where its names lead. -/
theorem locate_of_fits (hlawful : l.Lawful) (hfits : l.Fits) (hne : l.isEmpty = false) :
    d.locate ⟨l.text⟩ = d.follow l.names (d.base l.absolute) := by
  have hnames : ∀ name ∈ l.names, IsName name := fun name hname => (hlawful name hname).1
  have hsome : l.absolute = true ∨ l.names ≠ [] := Location.isEmpty_eq_false_iff.1 hne
  have htext : l.text ≠ "" := Path.text_ofComponents_ne hsome hnames
  have hempty : l.text.isEmpty = false := by simpa using htext
  have hpathNames : Path.names ⟨l.text⟩ = l.names := Path.names_ofComponents l.absolute hnames
  have habsolute : Path.isAbsolute ⟨l.text⟩ = l.absolute :=
    Path.isAbsolute_ofComponents l.absolute hnames
  simp only [locate, hempty, hfits.text, Nat.not_lt.2 hfits.size, hpathNames, habsolute,
    Bool.false_eq_true, if_false]
  unfold base
  split
  · next place heq =>
    have hnil : l.names ≠ [] := by
      rintro hnil
      simp [hnil, follow] at heq
    have hend : Path.endsInSlash ⟨l.text⟩ = false :=
      Path.endsInSlash_ofComponents l.absolute hnil hnames
    rw [hend, heq]
    rfl
  · rfl

/-- The names of a location that a disk takes. -/
theorem forall_names_of_fits (hlawful : l.Lawful) (hfits : l.Fits) :
    ∀ name ∈ l.names, name ≠ "." ∧ name ≠ ".." ∧ name.utf8ByteSize ≤ nameBound :=
  fun name hname => ⟨(hlawful name hname).2, hfits.names name hname⟩

/-! ### Making directories -/

/-- The disk `made` has these directories as well, and is the same otherwise. -/
structure Gains (d made : Disk) (new : List String → Prop) : Prop where
  here_eq : made.here = d.here
  files_eq : made.files = d.files
  mem_dirs_iff : ∀ place, place ∈ made.dirs ↔ place ∈ d.dirs ∨ new place

variable {P Q : List String → Prop}

theorem Gains.nothing (d : Disk) : d.Gains d fun _ => False :=
  ⟨rfl, rfl, fun place => by simp⟩

theorem Gains.trans {done : Disk} (h : d.Gains made P) (hdone : made.Gains done Q) :
    d.Gains done fun place => P place ∨ Q place :=
  ⟨hdone.here_eq.trans h.here_eq, hdone.files_eq.trans h.files_eq, fun place => by
    rw [hdone.mem_dirs_iff, h.mem_dirs_iff, or_assoc]⟩

/-- What was there before need not be gained. -/
theorem Gains.congr (h : d.Gains made P)
    (hiff : ∀ place, place ∈ d.dirs ∨ P place ↔ place ∈ d.dirs ∨ Q place) : d.Gains made Q :=
  ⟨h.here_eq, h.files_eq, fun place => (h.mem_dirs_iff place).trans (hiff place)⟩

theorem Gains.base_eq (h : d.Gains made P) (absolute : Bool) :
    made.base absolute = d.base absolute := by
  simp [base, h.here_eq]

theorem Gains.filePlaces_eq (h : d.Gains made P) : made.filePlaces = d.filePlaces := by
  simp [filePlaces, h.files_eq]

/-- A path through directories leads to what is there. -/
theorem locate_of_isDir (hlawful : l.Lawful) (hfits : l.Fits) (hne : l.names ≠ [])
    (hway : ∀ n, 0 < n → n < l.names.length → d.IsDir (d.base l.absolute ++ l.names.take n)) :
    d.locate ⟨l.text⟩ = .ok (d.spotAt (d.base l.absolute ++ l.names)) := by
  have hempty : l.isEmpty = false := by simp [Location.isEmpty, hne]
  rw [locate_of_fits hlawful hfits hempty,
    follow_of_isDir (forall_names_of_fits hlawful hfits) hne hway]

/-- In a directory, one more directory is made or kept, where there is no file. -/
theorem exists_makeOrKeep (hlawful : l.Lawful) (hfits : l.Fits) (hne : l.names ≠ [])
    (hway : ∀ n, 0 < n → n < l.names.length → d.IsDir (d.base l.absolute ++ l.names.take n))
    (hfree : d.base l.absolute ++ l.names ∉ d.filePlaces) :
    ∃ made, d.makeOrKeep ⟨l.text⟩ = .ok made ∧
      d.Gains made fun place => place = d.base l.absolute ++ l.names := by
  have hlocate := locate_of_isDir hlawful hfits hne hway
  by_cases hdir : d.IsDir (d.base l.absolute ++ l.names)
  · rw [spotAt_of_isDir hdir] at hlocate
    have hthere := hdir.resolve_left (by simp [hne])
    refine ⟨d, by simp [makeOrKeep, makeOne, isDirectory, hlocate], rfl, rfl, fun place => ?_⟩
    constructor
    · exact Or.inl
    · rintro (h | rfl)
      · exact h
      · exact hthere
  · rw [spotAt_of_not_isDir hdir, if_neg hfree] at hlocate
    refine ⟨{ d with dirs := d.dirs ++ [d.base l.absolute ++ l.names] },
      by simp [makeOrKeep, makeOne, hlocate], rfl, rfl, fun place => by simp⟩

/-- Where nothing leads on, no directory is found or made. -/
theorem makeOrKeep_of_not_isDir (hlawful : l.Lawful) (hfits : l.Fits)
    (hfree : ∀ n, 0 < n → n < l.names.length →
      d.base l.absolute ++ l.names.take n ∉ d.filePlaces)
    (hgap : ∃ n, 0 < n ∧ n < l.names.length ∧
      ¬ d.IsDir (d.base l.absolute ++ l.names.take n)) :
    d.makeOrKeep ⟨l.text⟩ = .error .notFound := by
  have hempty : l.isEmpty = false := by
    obtain ⟨n, hn, hlength, -⟩ := hgap
    have hne : l.names ≠ [] := List.ne_nil_of_length_pos (by omega)
    simp [Location.isEmpty, hne]
  have hlocate : d.locate ⟨l.text⟩ = .error .notFound := by
    rw [locate_of_fits hlawful hfits hempty,
      follow_of_not_isDir (forall_names_of_fits hlawful hfits) hfree hgap]
  simp [makeOrKeep, makeOne, isDirectory, hlocate]

/-- The first of the names, `n` of them at most, lead from `start` to the place. -/
def Passes (start names : List String) (n : Nat) (place : List String) : Prop :=
  ∃ k, 0 < k ∧ k ≤ n ∧ place = start ++ names.take k

theorem not_passes_zero {start : List String} : ¬ Passes start names 0 place := by
  rintro ⟨k, hk, hzero, -⟩
  omega

theorem passes_succ_iff {start : List String} {n : Nat} :
    Passes start names (n + 1) place ↔
      Passes start names n place ∨ place = start ++ names.take (n + 1) := by
  constructor
  · rintro ⟨k, hk, hkn, rfl⟩
    rcases Nat.le_succ_iff.1 hkn with hkn | rfl
    · exact .inl ⟨k, hk, hkn, rfl⟩
    · exact .inr rfl
  · rintro (⟨k, hk, hkn, rfl⟩ | rfl)
    · exact ⟨k, hk, by omega, rfl⟩
    · exact ⟨n + 1, by omega, le_rfl, rfl⟩

/-- The directories on the way to a place are made, those above before those below. -/
theorem exists_makeLine (hlawful : l.Lawful) {n : Nat} (hn : n ≤ l.names.length)
    (hfits : ∀ k, 0 < k → k ≤ n → Location.Fits ⟨l.absolute, l.names.take k⟩)
    (hfree : ∀ place, Passes (d.base l.absolute) l.names n place → place ∉ d.filePlaces) :
    ∃ made, d.makeLine (Path.line l.absolute l.names n) = .ok made ∧
      d.Gains made (Passes (d.base l.absolute) l.names n) := by
  induction n with
  | zero =>
    refine ⟨d, ?_, (Gains.nothing d).congr fun place => by simp [not_passes_zero]⟩
    cases hside : l.absolute with
    | false => rfl
    | true =>
      have hlocate : d.locate (Path.ofComponents true []) = .ok (.directory (d.base true)) :=
        locate_of_fits (l := ⟨true, []⟩) nofun (by decide) rfl
      simp [Path.line, makeLine, makeOrKeep, makeOne, isDirectory, hlocate]
  | succ n ih =>
    let m : Location := ⟨l.absolute, l.names.take (n + 1)⟩
    have hm : m.Lawful := fun name hname => hlawful name (List.mem_of_mem_take hname)
    have hmfits : m.Fits := hfits (n + 1) (by omega) le_rfl
    have hlength : m.names.length = n + 1 := by simp [m, hn]
    have hne : m.names ≠ [] := List.ne_nil_of_length_pos (by omega)
    have htake : ∀ k ≤ n, m.names.take k = l.names.take k := fun k hk => by
      simp [m, List.take_take, Nat.min_eq_left (Nat.le_succ_of_le hk)]
    have hpasses : ∀ k, 0 < k → k < m.names.length →
        Passes (d.base l.absolute) l.names n (d.base m.absolute ++ m.names.take k) :=
      fun k hk hkn => ⟨k, hk, by omega, by rw [htake k (by omega)]⟩
    have hhere : d.base m.absolute ++ m.names ∉ d.filePlaces :=
      hfree _ (passes_succ_iff.2 (.inr rfl))
    have habove := fun place hplace => hfree place (passes_succ_iff.2 (.inl hplace))
    have hpath : Path.line l.absolute l.names (n + 1) =
      ⟨m.text⟩ :: Path.line l.absolute l.names n := rfl
    rw [hpath, makeLine]
    by_cases hway : ∀ k, 0 < k → k < m.names.length → d.IsDir (d.base m.absolute ++ m.names.take k)
    · -- all above is there, so that only the directory itself is missing, if anything is
      obtain ⟨made, hmade, hgains⟩ := exists_makeOrKeep hm hmfits hne hway hhere
      refine ⟨made, by rw [hmade], hgains.congr fun place => ?_⟩
      have hthere : Passes (d.base l.absolute) l.names n place → place ∈ d.dirs := by
        rintro ⟨k, hk, hkn, rfl⟩
        have hdir := hway k hk (by omega)
        rw [htake k hkn] at hdir
        exact hdir.resolve_left (by
          simp only [List.append_eq_nil_iff, List.take_eq_nil_iff, not_and, not_or]
          exact fun _ => ⟨by omega, List.ne_nil_of_length_pos (by omega)⟩)
      rw [passes_succ_iff]
      constructor
      · exact Or.imp_right Or.inr
      · rintro (h | h | h)
        · exact .inl h
        · exact .inl (hthere h)
        · exact .inr h
    · have hmissing := makeOrKeep_of_not_isDir hm hmfits
        (fun k hk hkn => habove _ (hpasses k hk hkn)) (by simpa using hway)
      obtain ⟨above, hmade, hgains⟩ := ih (by omega) (fun k hk hkn => hfits k hk (by omega)) habove
      obtain ⟨made, hlast, hmore⟩ := exists_makeOrKeep (d := above) hm hmfits hne
        (fun k hk hkn => .inr ((hgains.mem_dirs_iff _).2 (.inr (hgains.base_eq m.absolute ▸
          hpasses k hk hkn))))
        (by rwa [hgains.filePlaces_eq, hgains.base_eq])
      refine ⟨made, by rw [hmissing]; simp [hmade, hlast], ?_⟩
      rw [hgains.base_eq] at hmore
      exact (hgains.trans hmore).congr fun place => by rw [passes_succ_iff]

/-- **Where no file is in the way, a directory is made with all that holds it**, and the disk gains
nothing else. -/
theorem exists_makeDirectory (hlawful : l.Lawful) (hne : l.isEmpty = false)
    (hfits : ∀ k, 0 < k → k ≤ l.names.length → Location.Fits ⟨l.absolute, l.names.take k⟩)
    (hfree : ∀ place, Passes (d.base l.absolute) l.names l.names.length place →
      place ∉ d.filePlaces) :
    ∃ made, d.makeDirectory ⟨l.text⟩ = .ok made ∧
      d.Gains made (Passes (d.base l.absolute) l.names l.names.length) := by
  have hsome : l.absolute = true ∨ l.names ≠ [] := Location.isEmpty_eq_false_iff.1 hne
  have htext : l.text ≠ "" :=
    Path.text_ofComponents_ne hsome fun name hname => (hlawful name hname).1
  have hline : (⟨l.text⟩ : Path) :: Path.ancestors ⟨l.text⟩ =
      Path.line l.absolute l.names l.names.length :=
    Path.cons_ancestors_ofComponents hsome hlawful
  have hempty : l.text.isEmpty = false := by simpa using htext
  rw [makeDirectory, hline]
  simpa [hempty] using exists_makeLine hlawful le_rfl hfits hfree

/-! ### Writing files -/

/-- A file is not written where there is a directory. -/
theorem write_of_isDir (hlawful : l.Lawful) (hfits : l.Fits) (hne : l.names ≠ [])
    (hway : ∀ n, 0 < n → n < l.names.length → d.IsDir (d.base l.absolute ++ l.names.take n))
    (hdir : d.IsDir (d.base l.absolute ++ l.names)) (contents : ByteArray) :
    d.write ⟨l.text⟩ contents = .error .isADirectory := by
  have hlocate := locate_of_isDir hlawful hfits hne hway
  rw [spotAt_of_isDir hdir] at hlocate
  simp [write, hlocate]

/-- A file is written in a directory where there is none of its name. -/
theorem write_of_not_isDir (hlawful : l.Lawful) (hfits : l.Fits) (hne : l.names ≠ [])
    (hway : ∀ n, 0 < n → n < l.names.length → d.IsDir (d.base l.absolute ++ l.names.take n))
    (hdir : ¬ d.IsDir (d.base l.absolute ++ l.names)) (contents : ByteArray) :
    d.write ⟨l.text⟩ contents = .ok
      { d with files := setContents (d.base l.absolute ++ l.names) contents d.files } := by
  have hlocate := locate_of_isDir hlawful hfits hne hway
  have hend : Path.endsInSlash ⟨l.text⟩ = false :=
    Path.endsInSlash_ofComponents l.absolute hne fun name hname => (hlawful name hname).1
  rw [spotAt_of_not_isDir hdir] at hlocate
  split at hlocate <;> simp [write, hlocate, hend]

/-! ### Answers -/

theorem answer_makeDirectory (d : Disk) (path : Path) :
    storage.answer (.makeDirectory path) d =
      settle .makeDirectory path d (d.makeDirectory path) := rfl

theorem answer_write (d : Disk) (path : Path) (contents : String) :
    storage.answer (.write path contents) d =
      settle .write path d (d.write path contents.toUTF8) := rfl

end Disk

end FileRoutes
