import FieldAccess.CommandLine.FileTree
import Mathlib.Data.List.Basic

/-! Files in a directory tree. Where a path leads depends on the directories only, so that writing a
file changes what is read at its place and nowhere else. Different names in one directory are
different places. -/
namespace FieldAccess.CommandLine

namespace FileTree

variable {t : FileTree}

/-! ### Writing and reading -/

theorem walk_files (t : FileTree) (files : List (Location × String)) (here : Location)
    (steps : List String) :
    (({ t with files } : FileTree).walk here steps).toOption = (t.walk here steps).toOption := by
  induction steps generalizing here with
  | nil => rfl
  | cons name rest ih =>
    have hdir : ({ t with files } : FileTree).isDirectory here = t.isDirectory here := rfl
    simp only [walk, hdir]
    by_cases hhere : t.isDirectory here = true
    · simp only [if_pos hhere]
      by_cases hdot : name = "."
      · simp only [if_pos hdot, ih]
      by_cases hdots : name = ".."
      · simp only [if_neg hdot, if_pos hdots, ih]
      by_cases hname : isName name = true
      · simp only [if_neg hdot, if_neg hdots, if_pos hname, ih]
      · simp only [if_neg hdot, if_neg hdots, if_neg hname]
    · simp only [if_neg hhere]
      rfl

theorem place?_files (t : FileTree) (files : List (Location × String)) (path : String) :
    ({ t with files } : FileTree).place? path = t.place? path := by
  have hroute : ({ t with files } : FileTree).route path = t.route path := rfl
  simp only [place?, hroute, walk_files]

/-- A write that goes well puts the text at the place of its path. -/
theorem write_eq_iff {path text : String} {u : FileTree} :
    t.write path text = (u, true) ↔ ∃ place, t.place? path = some place ∧
    t.isDirectory place = false ∧
      u = { t with files := Assoc.put place text t.files } := by
  rw [write]
  cases t.place? path with
  | none => simp
  | some place =>
    simp only [Option.some.injEq, exists_eq_left']
    by_cases hdir : t.isDirectory place = true
    · simp [hdir]
    · rw [if_neg hdir, Prod.mk.injEq, and_iff_left rfl, and_iff_right (Bool.eq_false_iff.mpr hdir)]
      exact eq_comm

theorem place?_write {path text : String} {u : FileTree} (h : t.write path text = (u, true))
    (other : String) : u.place? other = t.place? other := by
  obtain ⟨place, -, -, rfl⟩ := write_eq_iff.mp h
  exact place?_files t _ other

theorem read?_write {path text : String} {u : FileTree} (h : t.write path text = (u, true)) :
    u.read? path = some text := by
  have hplace := place?_write h path
  obtain ⟨place, hpath, -, rfl⟩ := write_eq_iff.mp h
  rw [read?, hplace, hpath]
  exact Assoc.get?_put_same ..

theorem read?_write_other {path text other : String} {u : FileTree}
    (h : t.write path text = (u, true))
    (hne : t.place? other ≠ t.place? path) : u.read? other = t.read? other := by
  have hplace := place?_write h other
  obtain ⟨place, hpath, -, rfl⟩ := write_eq_iff.mp h
  rw [read?, read?, hplace]
  cases hother : t.place? other with
  | none => rfl
  | some place' =>
    have : place' ≠ place := fun heq => hne (by rw [hother, hpath, heq])
    exact Assoc.get?_put_other this ..

end FileTree

/-! ### Names in a directory -/

/-- A name that stands for a file of its own in every directory. -/
structure IsFileName (name : String) : Prop where
  notSlashed : '/' ∉ name.toList
  nonempty : name ≠ ""
  notHere : name ≠ "."
  notAbove : name ≠ ".."

/-- What stands in front of a name in the path below a directory. -/
def stem (directory : String) : String :=
  if directory.isEmpty then "" else if directory.endsWith "/" then directory else directory ++ "/"

/-- Empty, or with a slash at the end. -/
def Slashed (cs : List Char) : Prop := cs = [] ∨ ∃ front, cs = front ++ ['/']

theorem endsWith_slash_iff {s : String} : s.endsWith "/" = true ↔ ∃ front,
    s.toList = front ++ ['/'] := by
  rw [← String.endsWith_toSlice, String.Slice.endsWith_string_iff, String.copy_toSlice]
  exact ⟨fun ⟨front, h⟩ => ⟨front, h.symm⟩, fun ⟨front, h⟩ => ⟨front, h.symm⟩⟩

theorem slashed_stem (directory : String) : Slashed (stem directory).toList := by
  unfold stem
  by_cases hempty : directory.isEmpty = true
  · rw [if_pos hempty]
    exact .inl rfl
  rw [if_neg hempty]
  by_cases hslash : directory.endsWith "/" = true
  · rw [if_pos hslash]
    exact .inr (endsWith_slash_iff.mp hslash)
  · rw [if_neg hslash, String.toList_append]
    exact .inr ⟨directory.toList, rfl⟩

theorem Slashed.of_append {front back : List Char}
    (h : Slashed (front ++ back)) : Slashed back := by
  rcases List.eq_nil_or_concat back with rfl | ⟨back, c, rfl⟩
  · exact .inl rfl
  rw [List.concat_eq_append] at h ⊢
  rcases h with h | ⟨whole, h⟩
  · simp at h
  · rw [← List.append_assoc] at h
    obtain ⟨-, hc⟩ := List.append_inj' h rfl
    exact .inr ⟨back, by rw [hc]⟩

/-- A text that ends in a slash stands in front of a path only if it stands in front of the stem. -/
theorem prefix_append_iff {front stem name : List Char} (hname : '/' ∉ name) :
    front ++ ['/'] <+: stem ++ name ↔ front ++ ['/'] <+: stem := by
  constructor
  · rintro ⟨rest, h⟩
    rcases List.append_eq_append_iff.mp h with ⟨m, hm, -⟩ | ⟨m, hm, hn⟩
    · exact ⟨m, hm.symm⟩
    -- what sticks out of the stem is empty, for it would end in a slash of the name
    · rcases List.eq_nil_or_concat m with rfl | ⟨m, c, rfl⟩
      · exact ⟨[], by rw [hm, List.append_nil, List.append_nil]⟩
      · rw [List.concat_eq_append, ← List.append_assoc] at hm
        obtain ⟨-, hc⟩ := List.append_inj' hm rfl
        obtain rfl : '/' = c := List.head_eq_of_cons_eq hc
        exact absurd (by simp [hn]) hname
  · exact fun h => h.trans (List.prefix_append ..)

theorem joinPath_eq {name : String} (hname : IsFileName name) (directory : String) :
    joinPath directory name = stem directory ++ name := by
  have hstart : ¬ name.startsWith "/" = true := by
    rw [String.startsWith_string_iff]
    rintro ⟨rest, h⟩
    exact hname.notSlashed (h ▸ List.mem_append_left rest (List.mem_singleton.mpr rfl))
  unfold joinPath stem
  by_cases hempty : directory.isEmpty = true
  · simp [hempty]
  · by_cases hslash : directory.endsWith "/" = true <;> simp [hstart, hempty, hslash]

namespace FileTree

/-- The name is the last part of its path; the others are those of the stem. -/
theorem partsOf_append {front : List Char} (hfront : Slashed front) {name : String}
    (hname : IsFileName name) :
    partsOf (String.ofList (front ++ name.toList)) = partsOf (String.ofList front) ++ [name] := by
  have hsingle : name.toList.splitOn '/' = [name.toList] :=
    List.splitOn_eq_singleton hname.notSlashed
  have hnonempty : name.toList.isEmpty = false := by simpa using hname.nonempty
  simp only [partsOf, String.toList_ofList]
  rcases hfront with rfl | ⟨front, rfl⟩
  · simp [hsingle, hnonempty]
  · rw [List.append_assoc, List.singleton_append, List.splitOn_append_cons_self,
      List.splitOn_append_cons_self, hsingle]
    simp [hnonempty]

theorem startsWith_stem_iff {name mark : String} (hname : IsFileName name) {front : List Char}
    (hmark : mark.toList = front ++ ['/']) (directory : String) :
    (stem directory ++ name).startsWith mark = true ↔ mark.toList <+: (stem directory).toList := by
  rw [String.startsWith_string_iff, String.toList_append, hmark]
  exact prefix_append_iff hname.notSlashed

/-- Files below one directory are reached by the same steps, up to their names. -/
theorem exists_route (t : FileTree) (directory : String) :
    ∃ start steps, ∀ name, IsFileName name → t.route (stem directory ++ name) =
      (start, steps ++ [name]) := by
  have hslashed := slashed_stem directory
  have hmark : (t.root ++ "/").toList = t.root.toList ++ ['/'] := String.toList_append
  have hslash : "/".toList = [] ++ ['/'] := rfl
  by_cases hroot : (t.root ++ "/").toList <+: (stem directory).toList
  · obtain ⟨rest, hrest⟩ := hroot
    rw [← hrest] at hslashed
    refine ⟨t.working, partsOf (String.ofList rest), fun name hname => ?_⟩
    have hlength : t.root.length + 1 = (t.root ++ "/").toList.length := by
      rw [hmark, List.length_append, String.length_toList]
      rfl
    have hpath : ((stem directory ++ name).drop (t.root.length + 1)).toString =
        String.ofList (rest ++ name.toList) := by
      rw [← String.toList_inj, String.toList_ofList]
      refine String.toList_copy_drop.trans ?_
      rw [String.toList_append, ← hrest, hlength, List.append_assoc, List.drop_left]
    rw [route, if_pos ((startsWith_stem_iff hname hmark directory).mpr ⟨rest, hrest⟩), hpath,
      partsOf_append hslashed.of_append hname]
  have hparts : ∀ name, IsFileName name →
      partsOf (stem directory ++ name) = partsOf (stem directory) ++ [name] := by
    intro name hname
    have := partsOf_append hslashed hname
    rwa [String.ofList_toList, ← String.toList_append, String.ofList_toList] at this
  by_cases htop : "/".toList <+: (stem directory).toList
  · refine ⟨[], partsOf (stem directory), fun name hname => ?_⟩
    rw [route, if_neg (mt (startsWith_stem_iff hname hmark directory).mp hroot),
      if_pos ((startsWith_stem_iff hname hslash directory).mpr htop), hparts name hname]
  · refine ⟨t.working, partsOf (stem directory), fun name hname => ?_⟩
    rw [route, if_neg (mt (startsWith_stem_iff hname hmark directory).mp hroot),
      if_neg (mt (startsWith_stem_iff hname hslash directory).mp htop), hparts name hname]

theorem walk_append (t : FileTree) (here : Location) (steps more : List String) :
    t.walk here (steps ++ more) = (t.walk here steps).bind fun there => t.walk there more := by
  induction steps generalizing here with
  | nil => rfl
  | cons name rest ih =>
    simp only [List.cons_append, walk]
    split
    · split
      · exact ih here
      · split
        · exact ih here.dropLast
        · split
          · exact ih (here ++ [name])
          · rfl
    · rfl

theorem walk_fileName {t : FileTree} {name : String} (hname : IsFileName name)
    {here place : Location} (h : t.walk here [name] = .ok place) : place = here ++ [name] := by
  simp only [walk, if_neg hname.notHere, if_neg hname.notAbove] at h
  split at h
  · split at h
    · exact (Except.ok.inj h).symm
    · cases h
  · cases h

/-- A file in a directory is at its name there. -/
theorem exists_place (t : FileTree) (directory : String) :
    ∃ here : Location, ∀ name place, IsFileName name →
    t.place? (joinPath directory name) = some place →
      place = here ++ [name] := by
  obtain ⟨start, steps, hroute⟩ := t.exists_route directory
  refine ⟨(t.walk start steps).toOption.getD [], fun name place hname h => ?_⟩
  have hend : ¬ (stem directory ++ name).endsWith "/" = true := by
    intro hend
    have hslashed : Slashed (stem directory ++ name).toList := .inr (endsWith_slash_iff.mp hend)
    rw [String.toList_append] at hslashed
    rcases hslashed.of_append with hempty | ⟨front, hfront⟩
    · exact hname.nonempty (by simpa using hempty)
    · exact hname.notSlashed (by simp [hfront])
  rw [joinPath_eq hname, place?, hroute name hname] at h
  simp only [if_neg hend, walk_append] at h
  cases hwalk : t.walk start steps with
  | error e =>
    rw [hwalk] at h
    split at h <;> cases h
  | ok here =>
    rw [hwalk] at h
    split at h
    · cases hplace : t.walk here [name] with
      | error e =>
        simp only [Except.bind, hplace] at h
        cases h
      | ok there =>
        simp only [Except.bind, hplace] at h
        cases h
        exact walk_fileName hname hplace
    · cases h

/-- Different names in one directory are different places. -/
theorem place?_joinPath_ne {t : FileTree} {directory a b : String} (ha : IsFileName a)
    (hb : IsFileName b) (hne : a ≠ b) {place : Location}
    (hplace : t.place? (joinPath directory b) = some place) :
    t.place? (joinPath directory a) ≠ some place := by
  obtain ⟨here, hhere⟩ := t.exists_place directory
  intro hsame
  have heq : here ++ [a] = here ++ [b] :=
    (hhere a place ha hsame).symm.trans (hhere b place hb hplace)
  exact hne (by simpa using heq)

end FileTree

end FieldAccess.CommandLine
