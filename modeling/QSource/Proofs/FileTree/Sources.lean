/-
**The sources below a directory.**

A directory keeps its entries in the order of their names, and a walk goes through them in that order,
with what stands in a directory in its place.  So files are found in the order of the rows of names that
lead to them from where the walk starts, compared name by name, and this is not the order of their paths
as texts: what stands in `a` comes before `a.q`, although a slash comes behind a point.

Main definitions:

* `QSource.Directory.InOrder` — the entries of a directory, and of all directories below it, have
  different names and stand in the order of these;
* `QSource.FileTree.HasFile` — the file at the end of a row of names;
* `QSource.Directory.DepthFirst`, `QSource.WalksDepthFirst` — what is asked of a walk;
* `QSource.Directory.listing` — the source files below a directory, with the names that lead to them;
* `QSource.FindsSources` — **what is found at the path of a directory**.

Main results:

* `QSource.Directory.InOrder.addFile` — files are put where the order wants them;
* `QSource.Directory.DepthFirst.sources_eq` — a walk comes by the source files under the paths of their
  names;
* `QSource.Directory.mem_listing_iff` — **all source files are found, and nothing else**;
* `QSource.Directory.pairwise_listing` — **they are found in the order of their names**;
* `QSource.unitsBy_directory` — the units that a walk finds at the path of a directory.
-/

import Mathlib.Data.String.Basic
import QSource.Proofs.FileTree.Paths
import QSource.Proofs.Text.Order
import QSource.Report.Basic

set_option relaxedAutoImplicit false
set_option autoImplicit false

namespace QSource

open Report Text

/-! ### Order -/

namespace Directory

/-- The names of the entries. -/
def names : Directory → List String
  | .empty => []
  | .entry name _ rest => name :: rest.names

/-- The entries of a directory have different names and stand in the order of these, and so do those of
the directories among them. -/
inductive InOrder : Directory → Prop
  | empty : InOrder .empty
  | entry {name : String} {tree : FileTree} {rest : Directory} (hname : IsEntryName name)
      (hfirst : ∀ other ∈ rest.names, name < other)
      (hbelow : ∀ entries, tree = .directory entries → InOrder entries) (hrest : InOrder rest) :
      InOrder (.entry name tree rest)

variable {d rest : Directory} {name : String} {tree : FileTree}

theorem mem_names_of_get? (h : d.get? name = some tree) : name ∈ d.names := by
  fun_induction get? name d with
  | case1 => simp at h
  | case2 => exact List.mem_cons_self ..
  | case3 other other' rest hne ih => exact List.mem_cons_of_mem _ (ih h)

theorem get?_entry_self (name : String) (tree : FileTree) (rest : Directory) :
    (Directory.entry name tree rest).get? name = some tree := by
  rw [get?, if_pos rfl]

theorem get?_entry_of_ne {other : String} (h : other ≠ name) :
    (Directory.entry name tree rest).get? other = rest.get? other := by
  rw [get?, if_neg h]

end Directory

/-- A directory is in order; there is nothing to ask of a file. -/
def FileTree.InOrder (tree : FileTree) : Prop := ∀ entries, tree = .directory entries → entries.InOrder

theorem FileTree.inOrder_file (content : ByteArray) : (FileTree.file content).InOrder := by
  rintro entries ⟨⟩

theorem FileTree.inOrder_directory {entries : Directory} :
    (FileTree.directory entries).InOrder ↔ entries.InOrder :=
  ⟨fun h => h entries rfl, by rintro h _ ⟨⟩; exact h⟩

namespace Directory.InOrder

variable {d : Directory} {name : String} {tree : FileTree}

/-- An entry of a directory in order. -/
theorem of_get? (hd : d.InOrder) (h : d.get? name = some tree) : IsEntryName name ∧ tree.InOrder := by
  induction hd with
  | empty => simp [get?] at h
  | @entry other tree' rest hname _ hbelow _ _ ih =>
      by_cases hne : name = other
      · subst hne
        rw [get?_entry_self, Option.some.injEq] at h
        exact h ▸ ⟨hname, hbelow⟩
      · rw [get?_entry_of_ne hne] at h
        exact ih h

/-! ### Putting files into a tree -/

theorem mem_names_update {change : Option FileTree → FileTree} {other : String}
    (h : other ∈ (d.update name change).names) : other = name ∨ other ∈ d.names := by
  fun_induction update name change d with
  | case1 => simpa [names] using h
  | case2 tree rest => exact .inr h
  | case3 other' tree rest hne hlt => simpa [names] using h
  | case4 other' tree rest hne hlt ih =>
      rcases List.mem_cons.1 h with rfl | h
      · exact .inr (List.mem_cons_self ..)
      · exact (ih h).imp_right (List.mem_cons_of_mem _)

/-- An entry is changed where it stands, and a new one is put where the order wants it. -/
theorem update {change : Option FileTree → FileTree} (hd : d.InOrder) (hname : IsEntryName name)
    (hchange : ∀ old : Option FileTree, (∀ tree ∈ old, tree.InOrder) → (change old).InOrder) :
    (d.update name change).InOrder := by
  induction hd with
  | empty => exact .entry hname (by simp [names]) (hchange none (by simp)) .empty
  | @entry other tree rest hother hfirst hbelow hrest _ ih =>
      rw [Directory.update]
      split
      · exact .entry hother hfirst (hchange _ (by rintro _ ⟨⟩; exact hbelow)) hrest
      · next hne =>
        split
        · next hlt =>
          refine .entry hname (fun n hn => ?_) (hchange none (by simp))
            (.entry hother hfirst hbelow hrest)
          rcases List.mem_cons.1 hn with rfl | hn
          · exact hlt
          · exact hlt.trans (hfirst n hn)
        · next hlt =>
          refine .entry hother (fun n hn => ?_) hbelow ih
          rcases mem_names_update hn with rfl | hn
          · exact lt_of_le_of_ne (not_lt.1 hlt) (Ne.symm hne)
          · exact hfirst n hn

theorem ofTree? {old : Option FileTree} (h : ∀ tree ∈ old, tree.InOrder) :
    (Directory.ofTree? old).InOrder := by
  rcases old with _ | (content | entries)
  · exact .empty
  · exact .empty
  · exact h _ rfl entries rfl

theorem insertFile {content : ByteArray} {names : List String}
    (hnames : ∀ name ∈ names, IsEntryName name) (hd : d.InOrder) :
    (d.insertFile content names).InOrder := by
  induction names generalizing d with
  | nil => exact hd
  | cons name rest ih =>
      obtain ⟨hname, hrest⟩ := List.forall_mem_cons.1 hnames
      cases rest with
      | nil => exact hd.update hname fun _ _ => FileTree.inOrder_file content
      | cons next rest =>
          exact hd.update hname fun old hold =>
            FileTree.inOrder_directory.2 (ih hrest (ofTree? hold))

/-- **Files are put where the order wants them.** -/
theorem addFile {root : Directory} {path : String} (hroot : root.InOrder)
    (hup : ".." ∉ pathParts path) (content : ByteArray) : (root.addFile path content).InOrder := by
  refine hroot.insertFile fun name hname => ?_
  obtain ⟨hmem, hstays⟩ := List.mem_filter.1 hname
  refine ⟨by simpa using hstays, fun heq => hup (heq ▸ hmem), ?_⟩
  obtain ⟨part, hpart, rfl⟩ := List.mem_map.1 hmem
  rw [String.toList_ofList]
  exact notMem_of_mem_splitAtChar hpart

end Directory.InOrder

/-- What names lead to in a tree in order is in order. -/
theorem FileTree.inOrder_of_locate {around : List Directory} {parts : List String}
    {tree found : FileTree} (haround : ∀ d ∈ around, d.InOrder) (htree : tree.InOrder)
    (h : FileTree.locate around parts tree = .ok found) : found.InOrder := by
  fun_induction FileTree.locate around parts tree with
  | case1 => exact Except.ok.inj h ▸ htree
  | case2 => simp at h
  | case3 around name parts entries hstays ih => exact ih haround htree h
  | case4 => simp at h
  | case5 parts entries parent outer hstays ih =>
      obtain ⟨hparent, houter⟩ := List.forall_mem_cons.1 haround
      exact ih houter (FileTree.inOrder_directory.2 hparent) h
  | case6 around name parts entries hstays hup tree htree' ih =>
      have hentries : entries.InOrder := htree entries rfl
      exact ih (List.forall_mem_cons.2 ⟨hentries, haround⟩) (hentries.of_get? htree').2 h
  | case7 => simp at h

/-! ### Files at the end of names -/

/-- The file at the end of a row of names, each of which is that of an entry. -/
inductive FileTree.HasFile : FileTree → List String → ByteArray → Prop
  | here (content : ByteArray) : HasFile (.file content) [] content
  | entry {entries : Directory} {name : String} {tree : FileTree} {names : List String}
      {content : ByteArray} (hentry : entries.get? name = some tree)
      (hfile : HasFile tree names content) : HasFile (.directory entries) (name :: names) content

namespace FileTree.HasFile

variable {name : String} {tree : FileTree} {entries rest : Directory} {names : List String}
  {content : ByteArray}

theorem file_iff {content' : ByteArray} :
    HasFile (.file content') names content ↔ names = [] ∧ content = content' := by
  constructor
  · rintro ⟨⟩
    exact ⟨rfl, rfl⟩
  · rintro ⟨rfl, rfl⟩
    exact .here _

theorem ne_nil (h : HasFile (.directory entries) names content) : names ≠ [] := by
  cases h
  exact List.cons_ne_nil _ _

/-- A file is at the end of names that start with the first entry, or below one of the others. -/
theorem entry_iff (hfresh : name ∉ rest.names) :
    HasFile (.directory (.entry name tree rest)) names content ↔
      (∃ below, names = name :: below ∧ HasFile tree below content) ∨
        HasFile (.directory rest) names content := by
  constructor
  · intro h
    cases h with
    | @entry _ other _ _ _ hentry hfile =>
        by_cases hother : other = name
        · subst hother
          rw [Directory.get?_entry_self, Option.some.injEq] at hentry
          exact .inl ⟨_, rfl, hentry ▸ hfile⟩
        · rw [Directory.get?_entry_of_ne hother] at hentry
          exact .inr (.entry hentry hfile)
  · rintro (⟨below, rfl, hfile⟩ | h)
    · exact .entry (Directory.get?_entry_self ..) hfile
    · cases h with
      | @entry _ other _ _ _ hentry hfile =>
          have hother : other ≠ name := by
            rintro rfl
            exact hfresh (Directory.mem_names_of_get? hentry)
          exact .entry ((Directory.get?_entry_of_ne hother).trans hentry) hfile

theorem isEntryName (h : HasFile tree names content) (htree : tree.InOrder) :
    ∀ name ∈ names, IsEntryName name := by
  induction h with
  | here => simp
  | entry hentry _ ih =>
      obtain ⟨hname, hbelow⟩ := (htree _ rfl).of_get? hentry
      exact List.forall_mem_cons.2 ⟨hname, ih hbelow⟩

/-- The names lead to the file. -/
theorem locate_eq (h : HasFile tree names content) (htree : tree.InOrder) (around : List Directory) :
    FileTree.locate around names tree = .ok (.file content) := by
  induction h generalizing around with
  | here => rfl
  | entry hentry _ ih =>
      obtain ⟨hname, hbelow⟩ := (htree _ rfl).of_get? hentry
      rw [FileTree.locate_of_get?_eq_some (by simp [hname.staysPut_eq]) hname.ne_up hentry]
      exact ih hbelow _

end FileTree.HasFile

/-! ### Source files -/

/-- The last of the names is that of a source file. -/
def IsSourcePath (names : List String) : Prop :=
  ∃ name, names.getLast? = some name ∧ (HasExtension name "q" ∨ HasExtension name "k")

theorem isSourcePath_singleton {name : String} :
    IsSourcePath [name] ↔ isSourceName name = true := by
  simp [IsSourcePath, isSourceName_iff]

theorem isSourcePath_cons {name : String} {names : List String} (h : names ≠ []) :
    IsSourcePath (name :: names) ↔ IsSourcePath names := by
  obtain ⟨next, rest, rfl⟩ := List.exists_cons_of_ne_nil h
  rw [IsSourcePath, List.getLast?_cons_cons, IsSourcePath]

namespace Directory

/-- The source files below a directory, each with the names that lead to it. -/
def listing : Directory → List (List String × ByteArray)
  | .empty => []
  | .entry name (.file content) rest =>
    (if isSourceName name then [([name], content)] else []) ++ rest.listing
  | .entry name (.directory entries) rest =>
    (entries.listing.map fun (names, content) => (name :: names, content)) ++ rest.listing

/-- **A walk goes depth-first**: it comes by the entries in their order, and by what stands in a
directory directly behind it. -/
inductive DepthFirst : String → Directory → List Visit → Prop
  | empty {path : String} : DepthFirst path .empty []
  | file {path name : String} {content : ByteArray} {rest : Directory} {visits : List Visit}
      (hrest : DepthFirst path rest visits) :
      DepthFirst path (.entry name (.file content) rest)
        (⟨childPath path name, name, .file content⟩ :: visits)
  | directory {path name : String} {entries rest : Directory} {below visits : List Visit}
      (hbelow : DepthFirst (childPath path name) entries below)
      (hrest : DepthFirst path rest visits) :
      DepthFirst path (.entry name (.directory entries) rest)
        (⟨childPath path name, name, .directory entries⟩ :: (below ++ visits))

theorem depthFirst_walk (d : Directory) (path : String) : d.DepthFirst path (d.walk path) := by
  fun_induction walk path d with
  | case1 => exact .empty
  | case2 path name content rest ih => exact .file ih
  | case3 path name entries rest ihentries ih => exact .directory ihentries ih

/-- **A walk comes by the source files under the paths of their names.** -/
theorem DepthFirst.sources_eq {path : String} {d : Directory} {visits : List Visit}
    (h : d.DepthFirst path visits) : visits.filterMap Visit.source? =
      d.listing.map fun (names, content) => (pathBelow path names, content) := by
  induction h with
  | empty => rfl
  | @file path name content rest visits hrest ih =>
      rw [listing, List.map_append, ← ih, List.filterMap_cons, Visit.source?]
      by_cases hname : isSourceName name = true
      · simp only [hname, if_true]
        rfl
      · simp only [hname]
        rfl
  | @directory path name entries rest below visits hbelow hrest ihbelow ih =>
      rw [listing, List.map_append, ← ih, List.map_map, List.filterMap_cons, Visit.source?]
      simp only [List.filterMap_append, ihbelow]
      rfl

variable {d : Directory}

/-- **All source files are found, and nothing else.** -/
theorem mem_listing_iff (hd : d.InOrder) {names : List String} {content : ByteArray} :
    (names, content) ∈ d.listing ↔
      (FileTree.directory d).HasFile names content ∧ IsSourcePath names := by
  induction hd generalizing names content with
  | empty =>
      simp only [listing, List.not_mem_nil, false_iff, not_and]
      intro hfile
      cases hfile with
      | entry hentry _ => simp [get?] at hentry
  | @entry name tree rest _ hfirst _ _ ihbelow ih =>
      have hfresh : name ∉ rest.names := fun h => lt_irrefl _ (hfirst name h)
      rw [FileTree.HasFile.entry_iff hfresh, or_and_right, ← ih]
      cases tree with
      | file content' =>
          rw [listing, List.mem_append]
          refine or_congr_left ?_
          simp only [List.mem_ite_nil_right, List.mem_singleton, Prod.mk.injEq,
            FileTree.HasFile.file_iff]
          constructor
          · rintro ⟨hsource, rfl, rfl⟩
            exact ⟨⟨[], rfl, rfl, rfl⟩, isSourcePath_singleton.2 hsource⟩
          · rintro ⟨⟨_, rfl, rfl, rfl⟩, hsource⟩
            exact ⟨isSourcePath_singleton.1 hsource, rfl, rfl⟩
      | directory entries =>
          rw [listing, List.mem_append]
          refine or_congr_left ?_
          simp only [List.mem_map, Prod.exists, Prod.mk.injEq, ihbelow entries rfl]
          constructor
          · rintro ⟨below, _, ⟨hfile, hsource⟩, rfl, rfl⟩
            exact ⟨⟨below, rfl, hfile⟩, (isSourcePath_cons hfile.ne_nil).2 hsource⟩
          · rintro ⟨⟨below, rfl, hfile⟩, hsource⟩
            exact ⟨below, content, ⟨hfile, (isSourcePath_cons hfile.ne_nil).1 hsource⟩, rfl, rfl⟩

/-- The first name to a source file is that of an entry. -/
theorem exists_mem_names_of_mem_listing {file : List String × ByteArray} (h : file ∈ d.listing) :
    ∃ name ∈ d.names, ∃ below, file.1 = name :: below := by
  fun_induction listing d with
  | case1 => simp at h
  | case2 name content rest ih =>
      rcases List.mem_append.1 h with h | h
      · rw [List.mem_ite_nil_right, List.mem_singleton] at h
        exact ⟨name, List.mem_cons_self .., [], by rw [h.2]⟩
      · obtain ⟨other, hother, hbelow⟩ := ih h
        exact ⟨other, List.mem_cons_of_mem _ hother, hbelow⟩
  | case3 name entries rest ihentries ih =>
      rcases List.mem_append.1 h with h | h
      · obtain ⟨below, -, rfl⟩ := List.mem_map.1 h
        exact ⟨name, List.mem_cons_self .., below.1, rfl⟩
      · obtain ⟨other, hother, hbelow⟩ := ih h
        exact ⟨other, List.mem_cons_of_mem _ hother, hbelow⟩

/-- **Source files are found in the order of their names**, compared one by one, each in the order of
its bytes. -/
theorem pairwise_listing (hd : d.InOrder) :
    d.listing.Pairwise fun file later => List.Lex BytesBefore file.1 later.1 := by
  induction hd with
  | empty => exact .nil
  | @entry name tree rest _ hfirst _ _ ihbelow ih =>
      have hlater : ∀ below, ∀ later ∈ rest.listing, List.Lex BytesBefore (name :: below) later.1 := by
        intro below later hlater
        obtain ⟨other, hother, names, hnames⟩ := exists_mem_names_of_mem_listing hlater
        rw [hnames]
        exact .rel (bytesBefore_of_lt (hfirst other hother))
      cases tree with
      | file content =>
          rw [listing, List.pairwise_append]
          refine ⟨?_, ih, fun file hfile => ?_⟩
          · split <;> simp
          · rw [List.mem_ite_nil_right, List.mem_singleton] at hfile
            rw [hfile.2]
            exact hlater []
      | directory entries =>
          rw [listing, List.pairwise_append, List.pairwise_map]
          refine ⟨(ihbelow entries rfl).imp fun h => .cons h, ih, fun file hfile => ?_⟩
          obtain ⟨below, -, rfl⟩ := List.mem_map.1 hfile
          exact hlater below.1

/-- The names that lead to a source file are those of entries, and there is one at least. -/
theorem isEntryName_of_mem_listing (hd : d.InOrder) {file : List String × ByteArray}
    (h : file ∈ d.listing) : file.1 ≠ [] ∧ ∀ name ∈ file.1, IsEntryName name := by
  have hfile := ((mem_listing_iff hd).1 h).1
  exact ⟨hfile.ne_nil, hfile.isEntryName (FileTree.inOrder_directory.2 hd)⟩

/-- Different source files have different paths. -/
theorem nodup_map_pathBelow_listing (hd : d.InOrder) (path : String) :
    (d.listing.map fun file => pathBelow path file.1).Nodup := by
  refine List.pairwise_map.2 ((pairwise_listing hd).imp_of_mem fun hfile hlater hbefore heq => ?_)
  obtain ⟨hne, hnames⟩ := isEntryName_of_mem_listing hd hfile
  obtain ⟨hne', hnames'⟩ := isEntryName_of_mem_listing hd hlater
  have hdiffer : List.Lex (· ≠ ·) _ _ := hbefore.imp (fun _ _ h => h.ne) _ _
  exact hdiffer.to_ne (pathBelow_inj hne hne' hnames hnames' heq)

/-- The path of a source file leads to it. -/
theorem locate_pathBelow_of_mem_listing {root : Directory} {path : String} (hpath : path ≠ "")
    (h : root.locate path = .ok (.directory d)) (hd : d.InOrder) {file : List String × ByteArray}
    (hfile : file ∈ d.listing) : root.locate (pathBelow path file.1) = .ok (.file file.2) := by
  obtain ⟨hne, hnames⟩ := isEntryName_of_mem_listing hd hfile
  obtain ⟨around, hlocate⟩ := locate_pathBelow hpath h
  rw [hlocate file.1 hne hnames]
  exact ((mem_listing_iff hd).1 hfile).1.locate_eq (FileTree.inOrder_directory.2 hd) around

end Directory

/-! ### Units -/

/-- What stands at a path of a tree in order is in order. -/
theorem inOrder_of_locate {root entries : Directory} {path : String} (hroot : root.InOrder)
    (h : root.locate path = .ok (.directory entries)) : entries.InOrder := by
  rw [Directory.locate] at h
  split at h
  · simp at h
  · exact FileTree.inOrder_of_locate (by simp) (FileTree.inOrder_directory.2 hroot) h entries rfl

/-- A walk goes depth-first through every directory in order. -/
def WalksDepthFirst (walk : String → Directory → List Visit) : Prop :=
  ∀ path (d : Directory), d.InOrder → d.DepthFirst path (walk path d)

section

variable {walk : String → Directory → List Visit} {root entries : Directory} {path : String}

theorem unitsBy_eq_map_listing (hwalk : WalksDepthFirst walk) (hentries : entries.InOrder)
    (h : root.locate path = .ok (.directory entries)) :
    unitsBy walk root path =
      entries.listing.map fun (names, content) => ⟨pathBelow path names, .ok content⟩ := by
  rw [unitsBy, h]
  simp only [(hwalk path entries hentries).sources_eq, List.map_map]
  rfl

/-- **What is found at the path of a directory**: the source files below it, each with the names that
lead to it from there. -/
structure FindsSources (root : Directory) (path : String) (entries : Directory)
    (units : List SourceUnit) (found : List (List String × ByteArray)) : Prop where
  /-- Each is a unit under its path. -/
  units_eq : units = found.map fun (names, content) => ⟨pathBelow path names, .ok content⟩
  /-- All source files are there, and nothing else. -/
  mem_iff : ∀ names content, (names, content) ∈ found ↔
    (FileTree.directory entries).HasFile names content ∧ IsSourcePath names
  /-- They stand in the order of their names, so none of them is there twice. -/
  ordered : found.Pairwise fun file later => List.Lex BytesBefore file.1 later.1
  /-- Nor is any path. -/
  nodup : (units.map (·.name)).Nodup
  /-- The path of a unit is one to its file. -/
  locate_eq : path ≠ "" → ∀ names content, (names, content) ∈ found →
    root.locate (pathBelow path names) = .ok (.file content)

/-- **The units at the path of a directory**, for a walk that goes depth-first and comes by the entries
of every directory in the order of their names, are the source files below it, each of them once, in
the order of the rows of names that lead to them. -/
theorem unitsBy_directory (hwalk : WalksDepthFirst walk) (hroot : root.InOrder)
    (h : root.locate path = .ok (.directory entries)) :
    ∃ found, FindsSources root path entries (unitsBy walk root path) found := by
  have hentries := inOrder_of_locate hroot h
  have hunits := unitsBy_eq_map_listing hwalk hentries h
  refine ⟨entries.listing, hunits, fun names content => Directory.mem_listing_iff hentries,
    Directory.pairwise_listing hentries, ?_, fun hpath names content hmem => ?_⟩
  · rw [hunits, List.map_map]
    exact Directory.nodup_map_pathBelow_listing hentries path
  · exact Directory.locate_pathBelow_of_mem_listing hpath h hentries hmem

end

/-- In `lib` the directory `a` comes before the file `a.q`, and the directory `d.q` is walked and is not
itself a source; neither are names that only open with a point or go on behind the extension. -/
theorem unitsBy_directory_walk :
    let walk : String → Directory → List Visit := fun path d => d.walk path
    let root := (((((Directory.empty.addFile "lib/a.q" .empty).addFile "lib/é.k" .empty).addFile
      "lib/d.q/y.k" .empty).addFile "lib/d.q/.q" .empty).addFile "lib/a/x.q" .empty).addFile
        "lib/b.q.txt" .empty
    WalksDepthFirst walk ∧ root.InOrder ∧
      ∃ entries found, root.locate "lib/" = .ok (.directory entries) ∧
        FindsSources root "lib/" entries (unitsBy walk root "lib/") found ∧
        (unitsBy walk root "lib/").map (·.name) =
          ["lib/a/x.q", "lib/a.q", "lib/d.q/y.k", "lib/é.k"] := by
  intro walk root
  have hwalk : WalksDepthFirst walk := fun path d _ => d.depthFirst_walk path
  have hroot : root.InOrder := (((((Directory.InOrder.empty.addFile (by decide +kernel) _).addFile
    (by decide +kernel) _).addFile (by decide +kernel) _).addFile (by decide +kernel) _).addFile
      (by decide +kernel) _).addFile (by decide +kernel) _
  have hlocate : root.locate "lib/" = .ok (.directory _) := rfl
  obtain ⟨found, hfound⟩ := unitsBy_directory hwalk hroot hlocate
  exact ⟨hwalk, hroot, _, found, hlocate, hfound, by decide +kernel⟩

end QSource
