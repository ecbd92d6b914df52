/-
**Paths into a file tree.**

A path is read as the names between its slashes.  The paths of what stands below a directory add names
to that of the directory, and since a name holds no slash they are told apart by these names, and lead
to what stands at the end of them.

Main definitions:

* `QSource.HasExtension` — a name ends in a point and an extension;
* `QSource.IsEntryName` — what an entry of a directory can be called;
* `QSource.pathBelow` — the path of what stands at the end of a row of names below a directory.

Main results:

* `QSource.splitAtChar_append_cons` — a text is cut at every separator;
* `QSource.extension?_eq_some_iff`, `QSource.isSourceName_iff` — **the names of source files**;
* `QSource.pathParts_pathBelow`, `QSource.pathBelow_inj` — the names of a path below a directory;
* `QSource.locate_pathBelow` — **what stands at a path below a directory**.
-/

import QSource.FileTree
import Mathlib.Data.List.Basic

set_option relaxedAutoImplicit false
set_option autoImplicit false

namespace QSource

/-! ### Texts that are cut at a character -/

section

variable {separator : Char}

@[simp] theorem splitAtChar_cons_self (s : List Char) :
    splitAtChar separator (separator :: s) = [] :: splitAtChar separator s := by
  rw [splitAtChar, if_pos rfl]

theorem exists_splitAtChar_eq_cons (separator : Char) (s : List Char) :
    ∃ part parts, splitAtChar separator s = part :: parts := by
  cases s with
  | nil => exact ⟨[], [], rfl⟩
  | cons c s =>
      rw [splitAtChar]
      split
      · exact ⟨_, _, rfl⟩
      · split <;> exact ⟨_, _, rfl⟩

theorem splitAtChar_cons_of_ne {c : Char} (hc : c ≠ separator) {s part : List Char}
    {parts : List (List Char)} (hs : splitAtChar separator s = part :: parts) :
    splitAtChar separator (c :: s) = (c :: part) :: parts := by
  rw [splitAtChar, if_neg hc, hs]

theorem splitAtChar_of_notMem {s : List Char} (h : separator ∉ s) :
    splitAtChar separator s = [s] := by
  induction s with
  | nil => rfl
  | cons c s ih =>
      rw [List.mem_cons, not_or] at h
      exact splitAtChar_cons_of_ne (Ne.symm h.1) (ih h.2)

/-- **A text is cut at every separator.** -/
theorem splitAtChar_append_cons (s t : List Char) :
    splitAtChar separator (s ++ separator :: t) =
      splitAtChar separator s ++ splitAtChar separator t := by
  induction s with
  | nil => simp [splitAtChar]
  | cons c s ih =>
      by_cases hc : c = separator
      · subst hc
        rw [List.cons_append, splitAtChar_cons_self, splitAtChar_cons_self, ih, List.cons_append]
      · obtain ⟨part, parts, hs⟩ := exists_splitAtChar_eq_cons separator s
        have hst : splitAtChar separator (s ++ separator :: t) =
            part :: (parts ++ splitAtChar separator t) := by
          rw [ih, hs, List.cons_append]
        rw [List.cons_append, splitAtChar_cons_of_ne hc hs, splitAtChar_cons_of_ne hc hst,
          List.cons_append]

/-- There is no separator left in the parts. -/
theorem notMem_of_mem_splitAtChar {s part : List Char} (h : part ∈ splitAtChar separator s) :
    separator ∉ part := by
  induction s generalizing part with
  | nil =>
      rw [splitAtChar, List.mem_singleton] at h
      simp [h]
  | cons c s ih =>
      by_cases hc : c = separator
      · subst hc
        rw [splitAtChar_cons_self] at h
        rcases List.mem_cons.1 h with rfl | h
        · simp
        · exact ih h
      · obtain ⟨first, parts, hs⟩ := exists_splitAtChar_eq_cons separator s
        rw [splitAtChar_cons_of_ne hc hs] at h
        rcases List.mem_cons.1 h with rfl | h
        · have hfirst : separator ∉ first := ih (by simp [hs])
          simp [hfirst, Ne.symm hc]
        · exact ih (by simp [hs, h])

theorem splitAtChar_eq_singleton_nil {s : List Char} (h : splitAtChar separator s = [[]]) : s = [] := by
  cases s with
  | nil => rfl
  | cons c s =>
      obtain ⟨part, parts, hs⟩ := exists_splitAtChar_eq_cons separator s
      by_cases hc : c = separator
      · subst hc
        simp [hs] at h
      · simp [splitAtChar_cons_of_ne hc hs] at h

end

/-! ### Extensions -/

/-- The name ends in a point, which does not open it, and the extension behind it. -/
def HasExtension (name extension : String) : Prop :=
  ∃ stem : String, stem ≠ "" ∧ name = stem ++ "." ++ extension ∧ '.' ∉ extension.toList

/-- A text without a character, or what stands before and behind the last one. -/
theorem notMem_or_exists_last (c : Char) (s : List Char) :
    c ∉ s ∨ ∃ before behind, s = before ++ c :: behind ∧ c ∉ behind := by
  by_cases h : c ∈ s
  · obtain ⟨behind, before, hs, hbehind⟩ := List.eq_append_cons_of_mem (List.mem_reverse.2 h)
    refine .inr ⟨before.reverse, behind.reverse, ?_, by simpa using hbehind⟩
    rw [← List.reverse_reverse s, hs]
    simp
  · exact .inl h

/-- The extension of a name is what follows its last point, if something stands before that. -/
theorem extension?_of_eq {name : String} {before behind : List Char}
    (hname : name.toList = before ++ '.' :: behind) (hbehind : '.' ∉ behind) :
    extension? name = if before = [] then none else some (String.ofList behind) := by
  have hparts : (splitAtChar '.' name.toList).reverse =
      behind :: (splitAtChar '.' before).reverse := by
    rw [hname, splitAtChar_append_cons, splitAtChar_of_notMem hbehind, List.reverse_append,
      List.reverse_singleton, List.singleton_append]
  rw [extension?, hparts]
  by_cases hbefore : before = []
  · subst hbefore
    rfl
  · obtain ⟨part, parts, hcut⟩ := exists_splitAtChar_eq_cons '.' before
    obtain ⟨last, others, hothers⟩ : ∃ last others,
        (splitAtChar '.' before).reverse = last :: others := by
      refine List.exists_cons_of_ne_nil ?_
      simp [hcut]
    have hne : ¬ (last = [] ∧ others = []) := by
      rintro ⟨rfl, rfl⟩
      have hsingle : splitAtChar '.' before = [[]] := by
        rw [← List.reverse_reverse (splitAtChar '.' before), hothers]
        rfl
      exact hbefore (splitAtChar_eq_singleton_nil hsingle)
    rw [hothers, if_neg hbefore]
    split
    · next heq =>
      simp only [List.cons.injEq] at heq
      exact absurd ⟨heq.2.1, heq.2.2⟩ hne
    · next heq =>
      simp only [List.cons.injEq] at heq
      rw [heq.1]
    · next heq => exact absurd rfl (heq _ _ _)

theorem extension?_eq_some_iff {name extension : String} :
    extension? name = some extension ↔ HasExtension name extension := by
  constructor
  · intro h
    rcases notMem_or_exists_last '.' name.toList with hname | ⟨before, behind, hname, hbehind⟩
    · simp [extension?, splitAtChar_of_notMem hname] at h
    · rw [extension?_of_eq hname hbehind] at h
      split at h
      · simp at h
      · next hbefore =>
        obtain rfl := Option.some.inj h
        exact ⟨String.ofList before, by simpa using hbefore, by
          rw [← String.toList_inj]; simpa using hname, by simpa using hbehind⟩
  · rintro ⟨stem, hstem, rfl, hextension⟩
    have hname : (stem ++ "." ++ extension).toList = stem.toList ++ '.' :: extension.toList := by simp
    rw [extension?_of_eq hname hextension, if_neg (by simpa using hstem), String.ofList_toList]

/-- **The names of source files.** -/
theorem isSourceName_iff {name : String} :
    isSourceName name = true ↔ HasExtension name "q" ∨ HasExtension name "k" := by
  rw [← extension?_eq_some_iff, ← extension?_eq_some_iff, isSourceName]
  cases extension? name <;> simp

/-! ### Names below a directory -/

/-- What an entry of a directory can be called. -/
structure IsEntryName (name : String) : Prop where
  staysPut_eq : staysPut name = false
  ne_up : name ≠ ".."
  slash_notMem : '/' ∉ name.toList

theorem IsEntryName.ne_empty {name : String} (h : IsEntryName name) : name ≠ "" := by
  rintro rfl
  exact absurd h.staysPut_eq (by decide)

/-- The path of what stands at the end of a row of names below `path`. -/
def pathBelow (path : String) (names : List String) : String := names.foldl childPath path

@[simp] theorem pathBelow_cons (path name : String) (names : List String) :
    pathBelow path (name :: names) = pathBelow (childPath path name) names := rfl

/-- The names of a path, without the empty one behind a slash at the end. -/
def dirParts (path : String) : List String :=
  if path.toList.getLast? = some '/' then (pathParts path).dropLast else pathParts path

theorem pathParts_eq_dirParts (path : String) :
    pathParts path = dirParts path ∨ pathParts path = dirParts path ++ [""] := by
  rw [dirParts]
  split
  · next hlast =>
    obtain ⟨before, hpath⟩ := List.getLast?_eq_some_iff.1 hlast
    refine .inr ?_
    simp [pathParts, hpath, splitAtChar_append_cons, splitAtChar]
  · exact .inl rfl

/-- A child adds its name to the names of a directory. -/
theorem pathParts_childPath {path name : String} (hname : '/' ∉ name.toList) :
    pathParts (childPath path name) = dirParts path ++ [name] := by
  rw [childPath, dirParts]
  split
  · next hlast =>
    obtain ⟨before, hpath⟩ := List.getLast?_eq_some_iff.1 hlast
    simp [pathParts, hpath, splitAtChar_append_cons, splitAtChar_of_notMem hname,
      splitAtChar_of_notMem List.not_mem_nil]
  · have hpath : (path ++ "/" ++ name).toList = path.toList ++ '/' :: name.toList := by simp
    rw [pathParts, hpath, splitAtChar_append_cons, splitAtChar_of_notMem hname, List.map_append,
      List.map_singleton, String.ofList_toList, pathParts]

/-- The path of a child does not end in a slash. -/
theorem dirParts_childPath {path name : String} (hname : IsEntryName name) :
    dirParts (childPath path name) = dirParts path ++ [name] := by
  have hlast : (childPath path name).toList.getLast? = name.toList.getLast? := by
    have hne : name.toList ≠ [] := by simpa using hname.ne_empty
    rw [childPath]
    split
    · rw [String.toList_append, List.getLast?_append_of_ne_nil _ hne]
    · rw [String.toList_append, List.getLast?_append_of_ne_nil _ hne]
  rw [dirParts, if_neg, pathParts_childPath hname.slash_notMem]
  rw [hlast]
  exact fun h => hname.slash_notMem (List.mem_of_getLast? h)

/-- **The names of a path below a directory.** -/
theorem pathParts_pathBelow {path : String} {names : List String} (hne : names ≠ [])
    (hnames : ∀ name ∈ names, IsEntryName name) :
    pathParts (pathBelow path names) = dirParts path ++ names := by
  induction names generalizing path with
  | nil => exact absurd rfl hne
  | cons name rest ih =>
      obtain ⟨hname, hrest⟩ := List.forall_mem_cons.1 hnames
      cases rest with
      | nil => exact pathParts_childPath hname.slash_notMem
      | cons next rest =>
          rw [pathBelow_cons, ih (List.cons_ne_nil _ _) hrest, dirParts_childPath hname,
            List.append_assoc, List.singleton_append]

/-- Paths below a directory are told apart by their names. -/
theorem pathBelow_inj {path : String} {names names' : List String} (hne : names ≠ [])
    (hne' : names' ≠ []) (hnames : ∀ name ∈ names, IsEntryName name)
    (hnames' : ∀ name ∈ names', IsEntryName name)
    (h : pathBelow path names = pathBelow path names') : names = names' := by
  have hparts := congrArg pathParts h
  rw [pathParts_pathBelow hne hnames, pathParts_pathBelow hne' hnames'] at hparts
  exact List.append_cancel_left hparts

theorem head?_pathBelow {path : String} (hpath : path ≠ "") (names : List String) :
    (pathBelow path names).toList.head? = path.toList.head? := by
  induction names generalizing path with
  | nil => rfl
  | cons name rest ih =>
      have hchars : path.toList ≠ [] := by simpa using hpath
      have hchild : ∃ behind, (childPath path name).toList = path.toList ++ behind := by
        rw [childPath]
        split
        · exact ⟨name.toList, by simp⟩
        · exact ⟨'/' :: name.toList, by simp⟩
      obtain ⟨behind, hbehind⟩ := hchild
      have hne : childPath path name ≠ "" := by
        intro hempty
        simp [hempty, hchars] at hbehind
      rw [pathBelow_cons, ih hne, hbehind, List.head?_append_of_ne_nil _ hchars]

/-! ### What stands at a path -/

namespace FileTree

variable {around : List Directory} {name : String} {rest : List String} {entries : Directory}

theorem locate_file_cons (around : List Directory) (name : String) (rest : List String)
    (content : ByteArray) :
    locate around (name :: rest) (.file content) = .error .notADirectory := by
  rw [locate.eq_def]

theorem locate_of_staysPut (h : staysPut name = true) :
    locate around (name :: rest) (.directory entries) = locate around rest (.directory entries) := by
  rw [locate.eq_def]
  exact if_pos h

theorem locate_up_nil :
    locate [] (".." :: rest) (.directory entries) = .error .missing := by
  rw [locate.eq_def]
  rfl

theorem locate_up (parent : Directory) :
    locate (parent :: around) (".." :: rest) (.directory entries) =
      locate around rest (.directory parent) := by
  rw [locate.eq_def]
  rfl

/-- The name of an entry leads there. -/
theorem locate_of_get?_eq_some (hstays : ¬ staysPut name = true) (hup : name ≠ "..")
    {tree : FileTree} (h : entries.get? name = some tree) :
    locate around (name :: rest) (.directory entries) = locate (entries :: around) rest tree := by
  rw [locate.eq_def]
  simp [hstays, hup, h]

theorem locate_of_get?_eq_none (hstays : ¬ staysPut name = true) (hup : name ≠ "..")
    (h : entries.get? name = none) :
    locate around (name :: rest) (.directory entries) = .error .missing := by
  rw [locate.eq_def]
  simp [hstays, hup, h]

end FileTree

/-- More names lead on from what has been found. -/
theorem exists_locate_append (around : List Directory) (parts : List String) (tree : FileTree) :
    ∃ around', ∀ rest, FileTree.locate around (parts ++ rest) tree =
      (FileTree.locate around parts tree).bind (FileTree.locate around' rest) := by
  fun_induction FileTree.locate around parts tree with
  | case1 around tree => exact ⟨around, fun rest => rfl⟩
  | case2 around name parts content =>
      exact ⟨around, fun rest => by rw [List.cons_append, FileTree.locate_file_cons]; rfl⟩
  | case3 around name parts entries hstays ih =>
      obtain ⟨around', hrest⟩ := ih
      exact ⟨around', fun rest => by
        rw [List.cons_append, FileTree.locate_of_staysPut hstays, hrest]⟩
  | case4 parts entries hstays =>
      exact ⟨[], fun rest => by rw [List.cons_append, FileTree.locate_up_nil]; rfl⟩
  | case5 parts entries parent outer hstays ih =>
      obtain ⟨around', hrest⟩ := ih
      exact ⟨around', fun rest => by rw [List.cons_append, FileTree.locate_up, hrest]⟩
  | case6 around name parts entries hstays hup tree htree ih =>
      obtain ⟨around', hrest⟩ := ih
      exact ⟨around', fun rest => by
        rw [List.cons_append, FileTree.locate_of_get?_eq_some hstays hup htree, hrest]⟩
  | case7 around name parts entries hstays hup htree =>
      exact ⟨around, fun rest => by
        rw [List.cons_append, FileTree.locate_of_get?_eq_none hstays hup htree]; rfl⟩

/-- An empty name leads nowhere else. -/
theorem eq_of_locate_empty {around : List Directory} {tree found : FileTree}
    (h : FileTree.locate around [""] tree = .ok found) : tree = found := by
  cases tree with
  | file content => simp [FileTree.locate_file_cons] at h
  | directory entries =>
      rw [FileTree.locate_of_staysPut (by decide)] at h
      exact Except.ok.inj h

/-- **What stands at a path below a directory** is what its names lead to from there. -/
theorem locate_pathBelow {root : Directory} {path : String} {found : FileTree} (hpath : path ≠ "")
    (h : root.locate path = .ok found) : ∃ around, ∀ names, names ≠ [] →
      (∀ name ∈ names, IsEntryName name) →
        root.locate (pathBelow path names) = FileTree.locate around names found := by
  have hrelative : path.toList.head? ≠ some '/' := by
    intro habsolute
    simp [Directory.locate, habsolute] at h
  obtain ⟨around, hrest⟩ := exists_locate_append [] (dirParts path) (.directory root)
  have hfound : FileTree.locate [] (dirParts path) (.directory root) = .ok found := by
    rw [Directory.locate, if_neg hrelative] at h
    rcases pathParts_eq_dirParts path with hparts | hparts
    · rwa [hparts] at h
    · rw [hparts, hrest] at h
      cases htree : FileTree.locate [] (dirParts path) (.directory root) with
      | error e => simp [htree, Except.bind] at h
      | ok tree =>
          rw [htree] at h
          rw [eq_of_locate_empty h]
  refine ⟨around, fun names hne hnames => ?_⟩
  rw [Directory.locate, if_neg (by rwa [head?_pathBelow hpath]), pathParts_pathBelow hne hnames,
    hrest, hfound]
  rfl

end QSource
