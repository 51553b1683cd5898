import FieldAccess.ClassFile.Basic
import FieldAccess.Proofs.Catalogs
import Mathlib

/-! What a catalog says, exactly. A class has a catalog if and only if its fields have names, no two
of them capitalize alike, and each has both accessors. Otherwise each field has the faults that it
and the fields before it call for. -/
namespace FieldAccess

/-! ### Names that capitalize alike -/

namespace Naming

/-- The second text has a capital in front where the first has the small ASCII letter; the rest is
the same. -/
def DiffersInCase (a b : String) : Prop :=
  ∃ c cs, c.isLower = true ∧ a.toList = c :: cs ∧ b.toList = c.toUpper :: cs

theorem toLower_of_isLower {c : Char} (h : c.isLower = true) : c.toLower = c :=
  Char.toLower_eq_of_not_isUpper (Char.not_isUpper_of_isLower h)

theorem toUpper_eq_iff {c d : Char} :
    c.toUpper = d.toUpper ↔
      c = d ∨ (c.isLower = true ∧ d = c.toUpper) ∨ (d.isLower = true ∧ c = d.toUpper) := by
  constructor
  · intro h
    by_cases hc : c.isLower = true
    · by_cases hd : d.isLower = true
      · -- two small letters are told apart by their capitals
        have hlower := congrArg Char.toLower h
        rw [Char.toLower_toUpper_eq_toLower, Char.toLower_toUpper_eq_toLower, toLower_of_isLower hc,
          toLower_of_isLower hd] at hlower
        exact .inl hlower
      · rw [Char.toUpper_eq_of_not_isLower hd] at h
        exact .inr (.inl ⟨hc, h.symm⟩)
    · rw [Char.toUpper_eq_of_not_isLower hc] at h
      by_cases hd : d.isLower = true
      · exact .inr (.inr ⟨hd, h⟩)
      · exact .inl (h.trans (Char.toUpper_eq_of_not_isLower hd))
  · rintro (rfl | ⟨-, rfl⟩ | ⟨-, rfl⟩)
    · rfl
    · exact (Char.toUpper_toUpper_eq_toUpper c).symm
    · exact Char.toUpper_toUpper_eq_toUpper d

theorem toList_capitalize (name : String) :
    (capitalize name).toList = capitalizeChars name.toList :=
  String.toList_ofList

/-- Two names capitalize alike when they are the same but for the case of an ASCII letter in
front. -/
theorem capitalize_eq_iff {a b : String} :
    capitalize a = capitalize b ↔ a = b ∨ DiffersInCase a b ∨ DiffersInCase b a := by
  rw [← String.toList_inj, toList_capitalize, toList_capitalize, ← String.toList_inj]
  unfold DiffersInCase
  cases a.toList with
  | nil => cases b.toList <;> simp [capitalizeChars]
  | cons c cs =>
    cases b.toList with
    | nil => simp [capitalizeChars]
    | cons d ds =>
      simp only [capitalizeChars, List.cons.injEq, toUpper_eq_iff]
      constructor
      · rintro ⟨rfl | ⟨hc, rfl⟩ | ⟨hd, rfl⟩, rfl⟩
        · exact .inl ⟨rfl, rfl⟩
        · exact .inr (.inl ⟨c, cs, hc, ⟨rfl, rfl⟩, rfl, rfl⟩)
        · exact .inr (.inr ⟨d, cs, hd, ⟨rfl, rfl⟩, rfl, rfl⟩)
      · rintro (⟨rfl, rfl⟩ | ⟨x, xs, hx, ⟨rfl, rfl⟩, rfl, rfl⟩ | ⟨x, xs, hx, ⟨rfl, rfl⟩, rfl, rfl⟩)
        · exact ⟨.inl rfl, rfl⟩
        · exact ⟨.inr (.inl ⟨hx, rfl⟩), rfl⟩
        · exact ⟨.inr (.inr ⟨hx, rfl⟩), rfl⟩

end Naming

/-! ### The accessor that is found -/

/-- The first entry of a list with a property. -/
def IsFirst {α : Type} (P : α → Prop) (l : List α) (a : α) : Prop :=
  ∃ before after, l = before ++ a :: after ∧ P a ∧ ∀ b ∈ before, ¬ P b

theorem find?_eq_some_iff_isFirst {α : Type} {P : α → Prop} [DecidablePred P] {l : List α} {a : α} :
    l.find? (fun b => decide (P b)) = some a ↔ IsFirst P l a := by
  rw [List.find?_eq_some_iff_append]
  constructor
  · rintro ⟨ha, before, after, rfl, hbefore⟩
    exact ⟨before, after, rfl, by simpa using ha, fun b hb => by simpa using hbefore b hb⟩
  · rintro ⟨before, after, rfl, ha, hbefore⟩
    exact ⟨by simpa using ha, before, after, rfl, fun b hb => by simpa using hbefore b hb⟩

namespace Catalog

/-- A method that can serve as an accessor: one of an object, with the given name and number of
parameters. -/
def Fits (name : String) (arity : Nat) (m : MethodDecl) : Prop :=
  m.isStatic = false ∧ m.name = name ∧ m.params.length = arity

instance (name : String) (arity : Nat) : DecidablePred (Fits name arity) := fun m =>
  inferInstanceAs (Decidable (m.isStatic = false ∧ m.name = name ∧ m.params.length = arity))

/-- The accessor that a class has: the first that fits and is exact, or the first that fits if none
is exact. -/
def Chosen (fits exact : MethodDecl → Prop) (methods : List (NodeId × MethodDecl))
    (id : NodeId) : Prop :=
  ∃ m, IsFirst (fun x => fits x.2 ∧ exact x.2) methods (id, m) ∨
    (∀ x ∈ methods, fits x.2 → ¬ exact x.2) ∧ IsFirst (fun x => fits x.2) methods (id, m)

theorem pick_eq_some_iff {fits exact : MethodDecl → Prop} [DecidablePred fits] [DecidablePred exact]
    {methods : List (NodeId × MethodDecl)} {id : NodeId} :
    pick (fun m => decide (exact m)) (methods.filter fun x => decide (fits x.2)) = some id ↔
      Chosen fits exact methods id := by
  have hexact : (methods.filter fun x => decide (fits x.2)).find? (fun x => decide (exact x.2)) =
      methods.find? fun x => decide (fits x.2 ∧ exact x.2) := by
    rw [List.find?_filter]
    simp
  rw [pick, hexact, List.head?_filter]
  cases hfind : methods.find? (fun x => decide (fits x.2 ∧ exact x.2)) with
  | some x =>
    have hfirst := find?_eq_some_iff_isFirst.mp hfind
    constructor
    · rintro ⟨⟩
      exact ⟨x.2, .inl hfirst⟩
    · rintro ⟨m, hm | ⟨hnone, -⟩⟩
      · rw [find?_eq_some_iff_isFirst.mpr hm] at hfind
        cases hfind
        rfl
      · obtain ⟨before, after, rfl, hx, -⟩ := hfirst
        exact absurd hx.2 (hnone x (by simp) hx.1)
  | none =>
    have hnone : ∀ x ∈ methods, fits x.2 → ¬ exact x.2 := by
      intro x hx hfits hx'
      exact List.find?_eq_none.mp hfind x hx (by simp [hfits, hx'])
    constructor
    · intro h
      obtain ⟨x, hx, rfl⟩ := Option.map_eq_some_iff.mp h
      exact ⟨x.2, .inr ⟨hnone, find?_eq_some_iff_isFirst.mp hx⟩⟩
    · rintro ⟨m, hm | ⟨-, hm⟩⟩
      · rw [find?_eq_some_iff_isFirst.mpr hm] at hfind
        cases hfind
      · simp [find?_eq_some_iff_isFirst.mpr hm]

theorem pick_congr {preferred preferred' : MethodDecl → Bool} {methods : List (NodeId × MethodDecl)}
    (h : ∀ x ∈ methods, preferred x.2 = preferred' x.2) :
    pick preferred methods = pick preferred' methods := by
  rw [pick, pick, List.find?_congr h]

theorem instanceMethods_eq_filter (p : Program) (owner : NodeId) (name : String) (arity : Nat) :
    instanceMethods p owner name arity = (p.methodsOf owner).filter fun x =>
      decide (Fits name arity x.2) := by
  refine List.filter_congr fun x _ => ?_
  rw [Bool.eq_iff_iff, decide_eq_true_iff]
  simp [Fits, and_assoc]

theorem getter?_eq_some_iff {p : Program} {owner : NodeId} {f : FieldDecl} {id : NodeId} :
    getter? p owner f = some id ↔
      Chosen (Fits (Naming.getter f.name) 0) (fun m => m.returnType = f.type)
        (p.methodsOf owner) id := by
  rw [getter?, instanceMethods_eq_filter, pick_eq_some_iff]

theorem setter?_eq_some_iff {p : Program} {owner : NodeId} {f : FieldDecl} {id : NodeId} :
    setter? p owner f = some id ↔
      Chosen (Fits (Naming.setter f.name) 1) (fun m => m.params.map Param.type = [f.type])
        (p.methodsOf owner) id := by
  have hexact : ∀ x ∈ instanceMethods p owner (Naming.setter f.name) 1,
      (x.2.params.all fun q => decide (q.type = f.type)) =
        decide (x.2.params.map Param.type = [f.type]) := by
    intro x hx
    rw [instanceMethods_eq_filter, List.mem_filter, decide_eq_true_iff] at hx
    obtain ⟨q, hq⟩ := List.length_eq_one_iff.mp hx.2.2.2
    rw [hq]
    simp
  have hpick : setter? p owner f =
      pick (fun m => decide (m.params.map Param.type = [f.type]))
        (instanceMethods p owner (Naming.setter f.name) 1) := pick_congr hexact
  rw [hpick, instanceMethods_eq_filter, pick_eq_some_iff]

theorem pick_eq_none_iff {preferred : MethodDecl → Bool} {methods : List (NodeId × MethodDecl)} :
    pick preferred methods = none ↔ methods = [] := by
  rw [pick, Option.map_eq_none_iff]
  cases methods with
  | nil => simp
  | cons x rest => cases h : (x :: rest).find? (fun m => preferred m.2) <;> simp

/-- A class has an accessor of the given name and number of parameters. -/
def Offers (methods : List (NodeId × MethodDecl)) (name : String) (arity : Nat) : Prop :=
  ∃ x ∈ methods, Fits name arity x.2

instance (methods : List (NodeId × MethodDecl)) (name : String) (arity : Nat) :
    Decidable (Offers methods name arity) :=
  inferInstanceAs (Decidable (∃ x ∈ methods, Fits name arity x.2))

theorem pick_isNone_iff {p : Program} {owner : NodeId} {name : String} {arity : Nat}
    {preferred : MethodDecl → Bool} :
    (pick preferred (instanceMethods p owner name arity)).isNone = true ↔
    ¬ Offers (p.methodsOf owner) name arity := by
  rw [Option.isNone_iff_eq_none, pick_eq_none_iff, instanceMethods_eq_filter,
    List.filter_eq_nil_iff]
  simp [Offers]

/-! ### The faults of a field -/

/-- Faults of a field that comes after some others: those of its name first, and only where it has
none those of its accessors. -/
def faults (className : String) (methods : List (NodeId × MethodDecl)) (earlier : List FieldDecl)
    (f : FieldDecl) : List CatalogError :=
  if f.name = "" then [.emptyFieldName className]
  else if ∃ g ∈ earlier, g.name = f.name then [.duplicateField className f.name]
  else
    match earlier.find? fun g => Naming.capitalize g.name = Naming.capitalize f.name with
    | some g => [.accessorCollision className g.name f.name (Naming.capitalize f.name)]
    | none =>
      (if Offers methods (Naming.getter f.name) 0 then []
        else [.missingGetter className f.name (Naming.getter f.name)]) ++
      (if Offers methods (Naming.setter f.name) 1 then []
        else [.missingSetter className f.name (Naming.setter f.name)])

/-- What is taken after some fields: all names, and each suffix by the first field that has it. -/
structure Tracks (taken : Taken) (earlier : List FieldDecl) : Prop where
  names : ∀ name, name ≠ "" → (name ∈ taken.names ↔ ∃ g ∈ earlier, g.name = name)
  suffixes : ∀ suffix, suffix ≠ "" → Assoc.get? suffix taken.suffixes =
    (earlier.find? fun g => Naming.capitalize g.name = suffix).map FieldDecl.name

theorem tracks_nil : Tracks {} [] := ⟨by simp, by simp [Assoc.get?]⟩

variable {p : Program} {types : Hierarchy} {owner : NodeId} {className : String} {taken : Taken}
  {earlier : List FieldDecl}

theorem missing_eq (p : Program) (owner : NodeId) (className : String) (f : FieldDecl) :
    missing className f (getter? p owner f) (setter? p owner f) =
      (if Offers (p.methodsOf owner) (Naming.getter f.name) 0 then []
        else [.missingGetter className f.name (Naming.getter f.name)]) ++
      (if Offers (p.methodsOf owner) (Naming.setter f.name) 1 then []
        else [.missingSetter className f.name (Naming.setter f.name)]) := by
  simp only [missing, getter?, setter?, pick_isNone_iff, ite_not]

theorem errorsOf_examine (tracks : Tracks taken earlier) (id : NodeId) (f : FieldDecl) :
    errorsOf (examine p types owner className taken id f).2 =
      faults className (p.methodsOf owner) earlier f := by
  unfold examine faults
  by_cases hempty : f.name = ""
  · simp [hempty, errorsOf]
  have hsuffix := tracks.suffixes _ (Naming.capitalize_ne_empty hempty)
  by_cases hdup : ∃ g ∈ earlier, g.name = f.name
  · have hmem := (tracks.names f.name hempty).mpr hdup
    simp only [String.isEmpty_iff, hempty, hdup, List.contains_iff_mem, hmem, if_true,
      if_false, errorsOf]
  have hmem : f.name ∉ taken.names := fun hmem => hdup ((tracks.names f.name hempty).mp hmem)
  simp only [String.isEmpty_iff, hempty, hdup, List.contains_iff_mem, hmem, if_false, hsuffix]
  cases hfind :
    earlier.find? fun g => decide (Naming.capitalize g.name = Naming.capitalize f.name) with
  | some g => simp [errorsOf]
  | none =>
    simp only [Option.map_none]
    rw [← missing_eq]
    cases getter? p owner f <;> cases setter? p owner f <;> simp [errorsOf, missing]

theorem Tracks.append {taken' : Taken} (tracks : Tracks taken earlier) {f : FieldDecl}
    (names : ∀ name, name ≠ "" → (name ∈ taken'.names ↔ name ∈ taken.names ∨ f.name = name))
    (suffixes : ∀ suffix, suffix ≠ "" → Assoc.get? suffix taken'.suffixes =
      (Assoc.get? suffix taken.suffixes).or
        (Assoc.get? suffix [(Naming.capitalize f.name, f.name)])) :
    Tracks taken' (earlier ++ [f]) := by
  constructor
  · intro name hname
    rw [names name hname, tracks.names name hname]
    simp [or_and_right, exists_or]
  · intro suffix hsuffix
    rw [suffixes suffix hsuffix, tracks.suffixes suffix hsuffix, List.find?_append]
    by_cases h : Naming.capitalize f.name = suffix <;>
      cases earlier.find? (fun g => decide (Naming.capitalize g.name = suffix)) <;>
        simp [h, Assoc.get?]

/-- A suffix that is taken already stays with the field that has it. -/
theorem Tracks.append_taken {taken' : Taken} (tracks : Tracks taken earlier) {f : FieldDecl}
    {first : String}
    (names : ∀ name, name ≠ "" → (name ∈ taken'.names ↔ name ∈ taken.names ∨ f.name = name))
    (suffixes : taken'.suffixes = taken.suffixes)
    (hfirst : Assoc.get? (Naming.capitalize f.name) taken.suffixes = some first) :
    Tracks taken' (earlier ++ [f]) := by
  refine tracks.append names fun suffix _ => ?_
  rw [suffixes]
  by_cases h : Naming.capitalize f.name = suffix
  · subst h
    rw [hfirst]
    rfl
  · simp [Assoc.get?, h]

theorem Tracks.exists_first (tracks : Tracks taken earlier) {name : String} (hne : name ≠ "")
    (hmem : name ∈ taken.names) :
    ∃ first, Assoc.get? (Naming.capitalize name) taken.suffixes = some first := by
  obtain ⟨g, hg, rfl⟩ := (tracks.names name hne).mp hmem
  rw [tracks.suffixes _ (Naming.capitalize_ne_empty hne)]
  have hsome : (earlier.find? fun h =>
      decide (Naming.capitalize h.name = Naming.capitalize g.name)).isSome :=
    List.find?_isSome.mpr ⟨g, hg, by simp⟩
  obtain ⟨h, hh⟩ := Option.isSome_iff_exists.mp hsome
  exact ⟨h.name, by rw [hh]; rfl⟩

/-- One field more: its name counts from then on, and so does its suffix unless an earlier field has
it. -/
theorem Tracks.examine (tracks : Tracks taken earlier) (id : NodeId) (f : FieldDecl) :
    Tracks (examine p types owner className taken id f).1 (earlier ++ [f]) := by
  unfold Catalog.examine
  by_cases hempty : f.name = ""
  · rw [if_pos (by simpa using hempty)]
    refine tracks.append (fun name hname => ?_) fun suffix hsuffix => ?_
    · simp [hempty, hname.symm]
    · have hne : Naming.capitalize f.name ≠ suffix := by
        rw [hempty]
        exact hsuffix.symm
      simp [Assoc.get?, hne]
  rw [if_neg (by simpa using hempty)]
  by_cases hmem : f.name ∈ taken.names
  · rw [if_pos (by simpa using hmem)]
    obtain ⟨first, hfirst⟩ := tracks.exists_first hempty hmem
    refine tracks.append_taken (fun name _ => ?_) rfl hfirst
    constructor
    · exact .inl
    · rintro (h | rfl)
      · exact h
      · exact hmem
  rw [if_neg (by simpa using hmem)]
  dsimp only
  have hnames : ∀ name, name ≠ "" →
      (name ∈ taken.names ++ [f.name] ↔ name ∈ taken.names ∨ f.name = name) := by
    intro name _
    simp [eq_comm]
  cases hget : Assoc.get? (Naming.capitalize f.name) taken.suffixes with
  | some first => exact tracks.append_taken hnames rfl hget
  | none =>
    have hsuffixes : ∀ suffix, suffix ≠ "" →
        Assoc.get? suffix (taken.suffixes ++ [(Naming.capitalize f.name, f.name)]) =
          (Assoc.get? suffix taken.suffixes).or
            (Assoc.get? suffix [(Naming.capitalize f.name, f.name)]) :=
      fun suffix _ => Assoc.get?_append suffix _ _
    cases getter? p owner f <;> cases setter? p owner f <;> exact tracks.append hnames hsuffixes

/-- Faults of all fields in order, each after the fields before it. -/
def allFaults (className : String) (methods : List (NodeId × MethodDecl))
    (earlier fields : List FieldDecl) : List CatalogError :=
  (fields.mapIdx fun i f => faults className methods (earlier ++ fields.take i) f).flatten

theorem allFaults_cons (className : String) (methods : List (NodeId × MethodDecl))
    (earlier : List FieldDecl) (f : FieldDecl) (rest : List FieldDecl) :
    allFaults className methods earlier (f :: rest) =
      faults className methods earlier f ++ allFaults className methods (earlier ++ [f]) rest := by
  simp [allFaults, List.mapIdx_cons]

/-- Examining all fields finds the faults of each, after the fields before it. -/
theorem errorsOf_examineAll (tracks : Tracks taken earlier) (fields : List (NodeId × FieldDecl)) :
    (examineAll p types owner className taken fields).flatMap errorsOf =
      allFaults className (p.methodsOf owner) earlier (fields.map Prod.snd) := by
  induction fields generalizing taken earlier with
  | nil => rfl
  | cons field rest ih =>
    rw [examineAll, List.flatMap_cons, List.map_cons, allFaults_cons, errorsOf_examine tracks,
      ih (tracks.examine field.1 field.2)]

/-! ### Classes without faults -/

theorem faults_eq_nil_iff {methods : List (NodeId × MethodDecl)} {f : FieldDecl} :
    faults className methods earlier f = [] ↔
      f.name ≠ "" ∧ (∀ g ∈ earlier, Naming.capitalize g.name ≠ Naming.capitalize f.name) ∧
        Offers methods (Naming.getter f.name) 0 ∧ Offers methods (Naming.setter f.name) 1 := by
  unfold faults
  by_cases hempty : f.name = ""
  · simp [hempty]
  rw [if_neg hempty]
  by_cases hdup : ∃ g ∈ earlier, g.name = f.name
  · obtain ⟨g, hg, hname⟩ := hdup
    rw [if_pos ⟨g, hg, hname⟩]
    constructor
    · nofun
    · rintro ⟨-, hfree, -⟩
      exact absurd (congrArg Naming.capitalize hname) (hfree g hg)
  rw [if_neg hdup]
  cases hfind :
    earlier.find? fun g => decide (Naming.capitalize g.name = Naming.capitalize f.name) with
  | some g =>
    have hg : Naming.capitalize g.name = Naming.capitalize f.name := by
      simpa using List.find?_some hfind
    constructor
    · nofun
    · rintro ⟨-, hfree, -⟩
      exact absurd hg (hfree g (List.mem_of_find?_eq_some hfind))
  | none =>
    have hfree : ∀ g ∈ earlier, Naming.capitalize g.name ≠ Naming.capitalize f.name := by
      simpa using List.find?_eq_none.mp hfind
    rw [and_iff_right hempty, and_iff_right hfree]
    simp

/-- Fields that have names, no two of which capitalize alike, and both accessors. -/
structure Sound (methods : List (NodeId × MethodDecl)) (fields : List FieldDecl) : Prop where
  named : ∀ f ∈ fields, f.name ≠ ""
  distinct : (fields.map fun f => Naming.capitalize f.name).Nodup
  getters : ∀ f ∈ fields, Offers methods (Naming.getter f.name) 0
  setters : ∀ f ∈ fields, Offers methods (Naming.setter f.name) 1

theorem sound_cons {methods : List (NodeId × MethodDecl)} {f : FieldDecl} {rest : List FieldDecl} :
    Sound methods (f :: rest) ↔
      (f.name ≠ "" ∧ (∀ g ∈ rest, Naming.capitalize f.name ≠ Naming.capitalize g.name) ∧
        Offers methods (Naming.getter f.name) 0 ∧ Offers methods (Naming.setter f.name) 1) ∧
      Sound methods rest := by
  constructor
  · rintro ⟨named, distinct, getters, setters⟩
    rw [List.forall_mem_cons] at named getters setters
    rw [List.map_cons, List.nodup_cons] at distinct
    refine ⟨⟨named.1, fun g hg heq => ?_, getters.1, setters.1⟩, named.2, distinct.2,
      getters.2, setters.2⟩
    exact distinct.1 (List.mem_map.mpr ⟨g, hg, heq.symm⟩)
  · rintro ⟨⟨hname, hfree, hgetter, hsetter⟩, named, distinct, getters, setters⟩
    refine ⟨List.forall_mem_cons.mpr ⟨hname, named⟩, ?_,
      List.forall_mem_cons.mpr ⟨hgetter, getters⟩, List.forall_mem_cons.mpr ⟨hsetter, setters⟩⟩
    rw [List.map_cons, List.nodup_cons]
    refine ⟨fun hmem => ?_, distinct⟩
    obtain ⟨g, hg, heq⟩ := List.mem_map.mp hmem
    exact hfree g hg heq.symm

theorem allFaults_eq_nil_iff {methods : List (NodeId × MethodDecl)} {fields : List FieldDecl} :
    allFaults className methods earlier fields = [] ↔
      Sound methods fields ∧
        ∀ f ∈ fields, ∀ g ∈ earlier, Naming.capitalize g.name ≠ Naming.capitalize f.name := by
  induction fields generalizing earlier with
  | nil =>
    have hsound : Sound methods [] := ⟨nofun, List.nodup_nil, nofun, nofun⟩
    simp [allFaults, hsound]
  | cons f rest ih =>
    rw [allFaults_cons, List.append_eq_nil_iff, faults_eq_nil_iff, ih, sound_cons]
    constructor
    · rintro ⟨⟨hname, hfree, hgetter, hsetter⟩, hsound, hrest⟩
      refine ⟨⟨⟨hname, fun g hg => hrest g hg f (by simp), hgetter, hsetter⟩, hsound⟩, ?_⟩
      exact List.forall_mem_cons.mpr ⟨hfree, fun g hg e he => hrest g hg e (by simp [he])⟩
    · rintro ⟨⟨⟨hname, hlater, hgetter, hsetter⟩, hsound⟩, hfree⟩
      rw [List.forall_mem_cons] at hfree
      refine ⟨⟨hname, hfree.1, hgetter, hsetter⟩, hsound, fun g hg e he => ?_⟩
      rcases List.mem_append.mp he with he | he
      · exact hfree.2 g hg e he
      · rw [List.mem_singleton.mp he]
        exact hlater g hg

variable {c : ClassDecl}

/-- The catalog of a class lists its faults, if it has any. -/
theorem catalog_eq_error_iff (hc : p.class? owner = some c) {errors : List CatalogError} :
    catalog p types owner = .error errors ↔
      errors ≠ [] ∧
      allFaults c.name (p.methodsOf owner) [] ((p.fieldsOf owner).map Prod.snd) = errors := by
  rw [catalog, Program.expectClass_eq_ok_iff.mpr hc]
  dsimp only
  rw [errorsOf_examineAll tracks_nil]
  cases allFaults c.name (p.methodsOf owner) [] ((p.fieldsOf owner).map Prod.snd) with
  | nil =>
    constructor
    · intro h
      cases h
    · rintro ⟨hne, hnil⟩
      exact absurd hnil.symm hne
  | cons e es =>
    constructor
    · intro h
      cases h
      exact ⟨List.cons_ne_nil e es, rfl⟩
    · rintro ⟨-, h⟩
      exact congrArg Except.error h

theorem exists_catalog_iff (hc : p.class? owner = some c) :
    (∃ fields, catalog p types owner = .ok fields) ↔
      Sound (p.methodsOf owner) ((p.fieldsOf owner).map Prod.snd) := by
  have hnil : allFaults c.name (p.methodsOf owner) [] ((p.fieldsOf owner).map Prod.snd) = [] ↔
      Sound (p.methodsOf owner) ((p.fieldsOf owner).map Prod.snd) := by
    simp [allFaults_eq_nil_iff]
  rw [← hnil]
  cases hcatalog : catalog p types owner with
  | ok fields =>
    refine iff_of_true ⟨fields, rfl⟩ ?_
    by_contra hne
    rw [(catalog_eq_error_iff hc).mpr ⟨hne, rfl⟩] at hcatalog
    cases hcatalog
  | error errors =>
    obtain ⟨hne, heq⟩ := (catalog_eq_error_iff hc).mp hcatalog
    rw [heq]
    exact iff_of_false nofun hne

end Catalog

open Catalog in
/-- A class has a catalog exactly when its fields are sound. The catalog describes each field in
order, with the accessors that the class has for it. A class without one has the faults of each
field, in order, after the fields before it. -/
theorem catalog_exact {p : Program} (types : Hierarchy) {owner : NodeId} {c : ClassDecl}
    (hc : p.class? owner = some c) :
    ((∃ fields, catalog p types owner = .ok fields) ↔
        Sound (p.methodsOf owner) ((p.fieldsOf owner).map Prod.snd)) ∧
      (∀ fields, catalog p types owner = .ok fields →
        List.Forall₂ (fun entry d =>
          Describes p types owner entry d ∧
            Chosen (Fits (Naming.getter entry.2.name) 0) (fun m => m.returnType = entry.2.type)
              (p.methodsOf owner) d.getter ∧
            Chosen (Fits (Naming.setter entry.2.name) 1)
              (fun m => m.params.map Param.type = [entry.2.type]) (p.methodsOf owner) d.setter)
          (p.fieldsOf owner) fields) ∧
      (∀ errors, catalog p types owner = .error errors →
        errors = allFaults c.name (p.methodsOf owner) [] ((p.fieldsOf owner).map Prod.snd)) ∧
      ∀ a b, Naming.capitalize a = Naming.capitalize b ↔
        a = b ∨ Naming.DiffersInCase a b ∨ Naming.DiffersInCase b a := by
  refine ⟨exists_catalog_iff hc, fun fields hfields => ?_, fun errors herrors => ?_,
    fun a b => Naming.capitalize_eq_iff⟩
  · refine (catalog_ok hfields).2.1.imp fun entry d describes => ?_
    exact ⟨describes, getter?_eq_some_iff.mp describes.getter,
      setter?_eq_some_iff.mp describes.setter⟩
  · exact ((catalog_eq_error_iff hc).mp herrors).2.symm

/-- Fields of one name or nearly so, one without a name and one without accessors. -/
def crowdedFile : ClassFile :=
  ⟨[{ name := "Crowd"
      fields :=
        [{ name := "id", type := .primitive .int64 }, { name := "Id", type := .string },
          { name := "id", type := .string }, { name := "Id", type := .string },
          { name := "", type := .string },
          { name := "x", type := .string, accessors := .none }] }]⟩

/-- The third and fourth field repeat the name of an earlier one, and so are no collisions. -/
theorem crowded_faults :
    catalog crowdedFile.toProgram (.ofProgram crowdedFile.toProgram) 0 =
      .error [.accessorCollision "Crowd" "id" "Id" "Id", .duplicateField "Crowd" "id",
        .duplicateField "Crowd" "Id", .emptyFieldName "Crowd",
        .missingGetter "Crowd" "x" "getX", .missingSetter "Crowd" "x" "setX"] := by
  have hclass : crowdedFile.toProgram.class? 0 = some
      { name := "Crowd", members := [1, 2, 3, 4, 5, 6, 7, 8, 9, 10, 11, 12, 13, 14, 15, 16] } := rfl
  obtain ⟨verdict, -, faults, -⟩ := catalog_exact (.ofProgram crowdedFile.toProgram) hclass
  cases h : catalog crowdedFile.toProgram (.ofProgram crowdedFile.toProgram) 0 with
  | ok fields => exact absurd (verdict.mp ⟨fields, h⟩).named (by decide)
  | error errors =>
    rw [faults errors h]
    rfl

end FieldAccess
