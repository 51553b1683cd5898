import FieldAccess.CommandLine.Listing
import FieldAccess.Proofs.Placement

/-! What a listing says of faulty classes, and what a run says of them. The listing looks at a
program that stays as it is and at every marked class; the run changes the program from class to
class and passes over classes without a field. For the program of a class file the two say the
same. -/
namespace FieldAccess

/-- A class without fields has a catalog, and it is empty. -/
theorem catalog_of_fieldsOf_nil {p : Program} {types : Hierarchy} {id : NodeId} {c : ClassDecl}
    (hc : p.class? id = some c) (h : p.fieldsOf id = []) : catalog p types id = .ok [] := by
  rw [catalog, Program.expectClass_eq_ok_iff.mpr hc]
  simp [h, Catalog.examineAll]

theorem catalog_error_ne_nil {p : Program} {types : Hierarchy} {id : NodeId}
    {errors : List CatalogError} (h : catalog p types id = .error errors) : errors ≠ [] := by
  unfold catalog at h
  split at h
  · cases h
    simp
  · simp only at h
    split at h
    · cases h
    · next hne =>
      cases h
      exact hne

namespace CommandLine

/-- What a listing says of one class. -/
structure ClassNote where
  name : String
  /-- A type of the reserved name, then the fields of a class without faults. -/
  remarks : List String
  errors : List String

namespace ClassNote

def lines (n : ClassNote) : List String := n.name :: (n.remarks ++ n.errors.map ("  error: " ++ ·))

def isFaulty (n : ClassNote) : Bool := !n.errors.isEmpty

/-- The faults, each with the name of the class. -/
def faults (n : ClassNote) : List (String × String) := n.errors.map (n.name, ·)

end ClassNote

/-- Messages of the faults in a catalog. -/
def catalogErrors : Except (List CatalogError) (List FieldDesc) → List String
  | .ok _ => []
  | .error errors => errors.map CatalogError.message

def catalogRemarks (p : Program) : Except (List CatalogError) (List FieldDesc) → List String
  | .ok fields => catalogLines p (.ok fields)
  | .error _ => []

def classNote (p : Program) (x : NodeId × ClassDecl) : ClassNote where
  name := x.2.name
  remarks := reservedLines p x.1 ++ catalogRemarks p (catalog p (.ofProgram p) x.1)
  errors := catalogErrors (catalog p (.ofProgram p) x.1)

/-- Marked classes in node order. -/
def marked (p : Program) : List (NodeId × ClassDecl) :=
  p.classes.filter fun c => c.2.isMarked Batch.marker

def notes (p : Program) : List ClassNote := (marked p).map (classNote p)

/-- The lines of a listing from its notes. -/
def noteLines (ns : List ClassNote) : List String :=
  if ns.isEmpty then ["[~] No @" ++ Batch.marker ++ " classes found"]
  else ns.flatMap ClassNote.lines

theorem isFaulty_classNote (p : Program) (x : NodeId × ClassDecl) :
    (classNote p x).isFaulty = !(catalog p (.ofProgram p) x.1).isOk := by
  cases h : catalog p (.ofProgram p) x.1 with
  | ok fields => simp [ClassNote.isFaulty, classNote, h, catalogErrors, Except.isOk, Except.toBool]
  | error errors =>
    have hne := catalog_error_ne_nil h
    simpa [ClassNote.isFaulty, classNote, h, catalogErrors, Except.isOk, Except.toBool] using hne

theorem lines_classNote (p : Program) (x : NodeId × ClassDecl) :
    (classNote p x).lines = x.2.name :: reservedLines p x.1 ++
      catalogLines p (catalog p (.ofProgram p) x.1) := by
  cases h : catalog p (.ofProgram p) x.1 with
  | ok fields => simp [ClassNote.lines, classNote, h, catalogErrors, catalogRemarks]
  | error errors =>
    simp [ClassNote.lines, classNote, h, catalogErrors, catalogRemarks, catalogLines]

/-- A listing is its notes, line by line, with the number of the faulty ones. -/
theorem listing_eq (p : Program) :
    listing p = (noteLines (notes p), ((notes p).filter ClassNote.isFaulty).length) := by
  have hlines : (notes p).flatMap ClassNote.lines = (marked p).flatMap fun x =>
      x.2.name :: reservedLines p x.1 ++ catalogLines p (catalog p (.ofProgram p) x.1) := by
    rw [notes, List.flatMap_map]
    exact List.flatMap_congr fun x _ => lines_classNote p x
  have hfaulty : ((notes p).filter ClassNote.isFaulty).length =
      ((marked p).filter fun x => !(catalog p (.ofProgram p) x.1).isOk).length := by
    rw [notes, List.filter_map, List.length_map]
    congr 1
    exact List.filter_congr fun x _ => isFaulty_classNote p x
  have hempty : (notes p).isEmpty = (marked p).isEmpty := List.isEmpty_map
  rw [noteLines, hlines, hfaulty, hempty]
  unfold listing
  simp only [List.flatMap_map, List.filter_map, List.length_map]
  cases hm : marked p with
  | nil =>
    have : (p.classes.filter fun c => c.2.isMarked Batch.marker) = [] := hm
    simp [this]
  | cons x xs =>
    have : (p.classes.filter fun c => c.2.isMarked Batch.marker) = x :: xs := hm
    simp [this, Function.comp_def]

end CommandLine

/-! ### The errors of a run -/

namespace Batch

open CommandLine

theorem candidates_eq_marked (p : Program) : candidates p = (marked p).map Prod.fst := rfl

theorem class?_of_mem_marked {p : Program} {x : NodeId × ClassDecl} (h : x ∈ marked p) :
    p.class? x.1 = some x.2 := by
  obtain ⟨⟨id, n⟩, hn, hx⟩ := List.mem_filterMap.mp (List.mem_filter.mp h).1
  obtain ⟨c, hc, rfl⟩ := Option.map_eq_some_iff.mp hx
  simp [Program.class?, node?_of_mem_indexed hn, hc]

/-- The errors about a class are the faults of its catalog, also where it has no field. -/
theorem errors_remarks {p : Program} {id : NodeId} {c : ClassDecl} (hc : p.class? id = some c) :
    ((remarks p id).filter fun d => d.severity == .error) =
      (catalogErrors (catalog p (.ofProgram p) id)).map fun text => ⟨.error, text, id⟩ := by
  unfold remarks
  cases hf : p.fieldsOf id with
  | nil => simp [catalog_of_fieldsOf_nil hc hf, catalogErrors]
  | cons f fs =>
    simp only [List.isEmpty_cons, Bool.false_eq_true, if_false]
    cases hcatalog : catalog p (.ofProgram p) id with
    | error errors =>
      rw [catalogErrors, List.map_map, List.filter_eq_self.mpr]
      · rfl
      · intro d hd
        obtain ⟨e, _, rfl⟩ := List.mem_map.mp hd
        rfl
    | ok fields =>
      simp only [catalogErrors, List.map_nil]
      split <;> simp

theorem mem_failed_iff {p : Program} {id : NodeId} :
    id ∈ (run true p).report.failed ↔
      id ∈ candidates p ∧ (catalog p (.ofProgram p) id).isOk = false := by
  have isolates := run_isolates p
  have hfailed : id ∈ candidates p → (id ∈ (run true p).report.failed ↔
      (catalog p (.ofProgram p) id).isOk = false) := by
    intro hid
    obtain ⟨c, hc⟩ := class?_of_mem_candidates hid
    rw [isolates.failed id hid]
    constructor
    · rintro ⟨_, errors, herrors⟩
      rw [herrors]
      rfl
    · intro hok
      refine ⟨fun hf => ?_, ?_⟩
      · rw [catalog_of_fieldsOf_nil hc hf] at hok
        cases hok
      · cases h : catalog p (.ofProgram p) id with
        | ok fields =>
          rw [h] at hok
          cases hok
        | error errors => exact ⟨errors, rfl⟩
  constructor
  · intro h
    have hid := isolates.places.subset (List.mem_append_right _ h)
    exact ⟨hid, (hfailed hid).mp h⟩
  · rintro ⟨hid, hok⟩
    exact (hfailed hid).mpr hok

/-- A run counts as many failed classes as the listing counts faulty ones. -/
theorem length_failed (p : Program) :
    (run true p).report.failed.length = ((notes p).filter ClassNote.isFaulty).length := by
  have hperm : (run true p).report.failed.Perm
      ((candidates p).filter fun id => !(catalog p (.ofProgram p) id).isOk) := by
    refine (List.perm_ext_iff_of_nodup (run_isolates p).ordered.2.2.2.nodup
      ((candidates_pairwise p).nodup.filter _)).mpr fun id => ?_
    simp [mem_failed_iff]
  rw [hperm.length_eq, candidates_eq_marked, notes, List.filter_map, List.filter_map,
    List.length_map, List.length_map]
  congr 1
  exact List.filter_congr fun x _ => (isFaulty_classNote p x).symm

/-- Name of the class at which a diagnostic is shown. -/
def ownerName (p : Program) (d : Diagnostic) : String :=
  ((p.class? d.anchor).map ClassDecl.name).getD "<unknown>"

/-- Where no field or method is marked, the errors of a run are the faults that the listing
names. -/
theorem errors_eq_faults {p : Program} (plain : misplacedMarkers p = []) :
    (run true p).errors.map (fun d => (ownerName (run true p).program d, d.message)) =
      (notes p).flatMap ClassNote.faults := by
  rw [errors_run, plain, List.nil_append, candidates_eq_marked, List.flatMap_map,
    List.map_flatMap, notes, List.flatMap_map]
  refine List.flatMap_congr fun x hx => ?_
  have hc := class?_of_mem_marked hx
  obtain ⟨ids, hafter, _⟩ := (hosting_run p).class_ x.1 x.2 hc
  rw [errors_remarks hc, List.map_map]
  simp [ClassNote.faults, classNote, ownerName, hafter, Function.comp_def]

theorem faults_eq_nil_iff (ns : List ClassNote) :
    ns.flatMap ClassNote.faults = [] ↔ (ns.filter ClassNote.isFaulty).length = 0 := by
  simp [ClassNote.faults, ClassNote.isFaulty]

end Batch

/-! ### Class files -/

namespace ClassFile

/-- No field and no method of the file is marked. -/
def Plain (f : ClassFile) : Prop :=
  ∀ c ∈ f.classes, (∀ fd ∈ c.fields, Batch.marker ∉ fd.annotations) ∧
    ∀ m ∈ c.methods, Batch.marker ∉ m.annotations

theorem not_misplaced {c : ClassDef} (hfields : ∀ fd ∈ c.fields, Batch.marker ∉ fd.annotations)
    (hmethods : ∀ m ∈ c.methods, Batch.marker ∉ m.annotations) {n : Node} (hn : n ∈ c.nodes) :
    Batch.marker ∉ n.annotations := by
  rcases List.mem_append.mp hn with hn | hn
  · obtain ⟨f, hf, hn⟩ := List.mem_flatMap.mp hn
    rcases FieldDef.mem_nodes hn with rfl | rfl | rfl
    · exact hfields f hf
    · exact List.not_mem_nil
    · exact List.not_mem_nil
  · obtain ⟨m, hm, rfl⟩ := List.mem_map.mp hn
    exact hmethods m hm

theorem Plain.misplacedMarkers {f : ClassFile} (plain : f.Plain) :
    Batch.misplacedMarkers f.toProgram = [] := by
  have hmarkers := Program.misplacedMarkers_populateAll Program.Built.empty.owned f.classes
  refine hmarkers.trans ?_
  have hempty : Batch.misplacedMarkers Program.empty = [] := rfl
  rw [hempty, List.nil_append, List.flatMap_eq_nil_iff]
  rintro ⟨host, c⟩ hx
  have hc : c ∈ f.classes := (List.of_mem_zip hx).2
  rw [ClassDef.complaints, List.filterMap_eq_nil_iff]
  intro n hn
  have hnot := not_misplaced (plain c hc).1 (plain c hc).2 hn
  simp [Batch.complaint?, Batch.isMisplaced, hnot]

/-- A run over the program of a plain class file gives no warnings. -/
theorem Plain.diagnostics {f : ClassFile} (plain : f.Plain) :
    (Batch.run true f.toProgram).diagnostics = (Batch.run true f.toProgram).errors := by
  rw [Batch.errors, List.filter_eq_self.mpr]
  intro d hd
  rw [(Batch.run_decides f.toProgram_closed).diagnostics, plain.misplacedMarkers, List.nil_append]
    at hd
  obtain ⟨id, _, hd⟩ := List.mem_flatMap.mp hd
  unfold Batch.remarks at hd
  split at hd
  · cases hd
  · split at hd
    · obtain ⟨e, _, rfl⟩ := List.mem_map.mp hd
      rfl
    · rw [f.toProgram_findReserved?] at hd
      cases hd

end ClassFile

end FieldAccess
