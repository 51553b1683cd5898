import FieldAccess.Proofs.Construction
import FieldAccess.Proofs.Grafts

/-! What a batch run decides. Each marked class gets a verdict, which depends on the program before
the run and on whether the class has a type of the reserved name when its turn comes. The program,
the report and the diagnostics after a run are read off the list of verdicts. -/
namespace FieldAccess

inductive Verdict where
  /-- The class has no field. -/
  | skipped
  | failed (errors : List CatalogError)
  /-- There is a type of the reserved name. -/
  | present (origin : Origin)
  | injected (spec : MapperSpec)

namespace Verdict

def isSkipped : Verdict → Bool
  | skipped => true
  | _ => false

def isFailed : Verdict → Bool
  | failed _ => true
  | _ => false

def isPresent : Verdict → Bool
  | present _ => true
  | _ => false

def isInjected : Verdict → Bool
  | injected _ => true
  | _ => false

/-- What is said about a class. -/
def remarks (className : String) (id : NodeId) : Verdict → List Diagnostic
  | failed errors => errors.map fun e => ⟨.error, e.message, id⟩
  | present .user => [⟨.warning, Batch.alreadyPresentMessage className, id⟩]
  | _ => []

/-- The type that is attached to a class. -/
def specs (id : NodeId) : Verdict → List (NodeId × MapperSpec)
  | injected m => [(id, m)]
  | _ => []

/-- Classes with a verdict of one kind. -/
def select (kind : Verdict → Bool) (vs : List (NodeId × Verdict)) : List NodeId :=
  (vs.filter fun x => kind x.2).map Prod.fst

theorem mem_select {kind : Verdict → Bool} {vs : List (NodeId × Verdict)} {id : NodeId} :
    id ∈ select kind vs ↔ ∃ v, (id, v) ∈ vs ∧ kind v = true := by
  simp [select]

theorem select_sublist (kind : Verdict → Bool) (vs : List (NodeId × Verdict)) :
    (select kind vs).Sublist (vs.map Prod.fst) :=
  List.filter_sublist.map Prod.fst

theorem select_append_singleton (kind : Verdict → Bool) (vs : List (NodeId × Verdict))
    (x : NodeId × Verdict) :
    select kind (vs ++ [x]) = select kind vs ++ if kind x.2 then [x.1] else [] := by
  cases h : kind x.2 <;> simp [select, h]

/-- A class takes its place at the end of one list. -/
def addTo (r : Report) (id : NodeId) : Verdict → Report
  | skipped => { r with skipped := r.skipped ++ [id] }
  | failed _ => { r with failed := r.failed ++ [id] }
  | present _ => { r with alreadyPresent := r.alreadyPresent ++ [id] }
  | injected _ => { r with injected := r.injected ++ [id] }

/-- Classes by their verdicts. -/
def report (vs : List (NodeId × Verdict)) : Report where
  injected := select isInjected vs
  alreadyPresent := select isPresent vs
  skipped := select isSkipped vs
  failed := select isFailed vs

theorem report_append_singleton (vs : List (NodeId × Verdict)) (id : NodeId) (v : Verdict) :
    report (vs ++ [(id, v)]) = v.addTo (report vs) id := by
  cases v <;>
    simp [report, addTo, select_append_singleton, isInjected, isPresent, isSkipped, isFailed]

def allSpecs (vs : List (NodeId × Verdict)) : List (NodeId × MapperSpec) :=
  vs.flatMap fun x => x.2.specs x.1

theorem allSpecs_append_singleton (vs : List (NodeId × Verdict)) (x : NodeId × Verdict) :
    allSpecs (vs ++ [x]) = allSpecs vs ++ x.2.specs x.1 := by
  simp [allSpecs]

theorem map_fst_allSpecs (vs : List (NodeId × Verdict)) :
    (allSpecs vs).map Prod.fst = select isInjected vs := by
  induction vs using List.reverseRecOn with
  | nil => rfl
  | append_singleton vs x ih =>
    obtain ⟨id, v⟩ := x
    rw [allSpecs_append_singleton, select_append_singleton, List.map_append, ih]
    cases v <;> rfl

end Verdict

namespace Batch

/-- The name that messages about a class use. -/
def className (p : Program) (id : NodeId) : String := ((p.class? id).map ClassDecl.name).getD ""

/-- The verdict on a class of `p` when the reserved name is looked up in `q`. -/
def verdict (p q : Program) (id : NodeId) : Verdict :=
  if (p.fieldsOf id).isEmpty then .skipped
  else
    match synthesize p (.ofProgram p) id with
    | .error errors => .failed errors
    | .ok m =>
      match q.findReserved? id with
      | some found => .present found.2
      | none => .injected m

/-- Verdicts on classes in turn. -/
def verdicts (p : Program) (ids : List NodeId) : List (NodeId × Verdict) :=
  ids.foldl (fun vs id => vs ++ [(id, verdict p (p.graftAll (Verdict.allSpecs vs)) id)]) []

theorem verdicts_append_singleton (p : Program) (ids : List NodeId) (id : NodeId) :
    verdicts p (ids ++ [id]) = verdicts p ids ++
      [(id, verdict p (p.graftAll (Verdict.allSpecs (verdicts p ids))) id)] := by
  simp [verdicts]

theorem map_fst_verdicts (p : Program) (ids : List NodeId) :
    (verdicts p ids).map Prod.fst = ids := by
  induction ids using List.reverseRecOn with
  | nil => rfl
  | append_singleton ids id ih => rw [verdicts_append_singleton, List.map_append, ih]; rfl

/-- A type can be made for the class. -/
def Servable (p : Program) (id : NodeId) : Prop :=
  p.fieldsOf id ≠ [] ∧ ∃ fields, catalog p (.ofProgram p) id = .ok fields

/-- All that a verdict can be, with its reasons. -/
theorem verdict_cases {p : Program} {id : NodeId} {c : ClassDecl} (hc : p.class? id = some c)
    (q : Program) :
    (p.fieldsOf id = [] ∧ verdict p q id = .skipped) ∨
    (p.fieldsOf id ≠ [] ∧ ∃ errors, catalog p (.ofProgram p) id = .error errors ∧
      verdict p q id = .failed errors) ∨
    (Servable p id ∧ ∃ found, q.findReserved? id = some found ∧ verdict p q id = .present found.2) ∨
    (Servable p id ∧ q.findReserved? id = none ∧ ∃ m, synthesize p (.ofProgram p) id = .ok m ∧
      verdict p q id = .injected m) := by
  unfold verdict
  cases hf : p.fieldsOf id with
  | nil => exact Or.inl ⟨rfl, rfl⟩
  | cons f fs =>
    have hfields : p.fieldsOf id ≠ [] := by rw [hf]; exact nofun
    refine Or.inr ?_
    simp only [List.isEmpty_cons, Bool.false_eq_true, if_false, synthesize_of_class hc]
    cases hcatalog : catalog p (.ofProgram p) id with
    | error errors => exact Or.inl ⟨nofun, errors, rfl, rfl⟩
    | ok fields =>
      refine Or.inr ?_
      have servable : Servable p id := ⟨hfields, fields, hcatalog⟩
      cases hr : q.findReserved? id with
      | some found => exact Or.inl ⟨servable, found, rfl, rfl⟩
      | none => exact Or.inr ⟨servable, rfl, _, rfl, rfl⟩

/-- Hosts are classes, and their types are made by synthesis. -/
theorem hosting_verdicts {p : Program} {ids : List NodeId}
    (hids : ∀ id ∈ ids, ∃ c, p.class? id = some c) :
    p.Hosting (p.graftAll (Verdict.allSpecs (verdicts p ids)))
      (Verdict.select Verdict.isInjected (verdicts p ids)) := by
  induction ids using List.reverseRecOn with
  | nil => exact .refl p
  | append_singleton ids id ih =>
    have hold := ih fun i hi => hids i (List.mem_append_left _ hi)
    obtain ⟨c, hc⟩ := hids id (List.mem_append_right _ (List.mem_singleton.mpr rfl))
    rw [verdicts_append_singleton, Verdict.allSpecs_append_singleton,
      Verdict.select_append_singleton]
    rcases verdict_cases hc (p.graftAll (Verdict.allSpecs (verdicts p ids))) with
      ⟨_, hv⟩ | ⟨_, errors, _, hv⟩ | ⟨_, found, _, hv⟩ | ⟨_, _, m, hs, hv⟩
    · simpa [hv, Verdict.specs, Verdict.isInjected] using hold
    · simpa [hv, Verdict.specs, Verdict.isInjected] using hold
    · simpa [hv, Verdict.specs, Verdict.isInjected] using hold
    · obtain ⟨fields, d, _, _, rfl⟩ := synthesize_ok hs
      simp only [hv, Verdict.specs, Verdict.isInjected, if_true]
      rw [Program.graftAll_append]
      exact hold.attachMapper hc (Synthesis.standard_mapper _ _ _)

/-- Every verdict was found in a program grown from the first. -/
theorem exists_of_mem_verdicts {p : Program} {ids : List NodeId}
    (hids : ∀ id ∈ ids, ∃ c, p.class? id = some c) {id : NodeId} {v : Verdict}
    (h : (id, v) ∈ verdicts p ids) : ∃ q, p.Extends q ∧ v = verdict p q id := by
  induction ids using List.reverseRecOn with
  | nil => cases h
  | append_singleton ids last ih =>
    have hfront : ∀ i ∈ ids, ∃ c, p.class? i = some c :=
      fun i hi => hids i (List.mem_append_left _ hi)
    rw [verdicts_append_singleton] at h
    rcases List.mem_append.mp h with h | h
    · exact ih hfront h
    · obtain ⟨rfl, rfl⟩ := Prod.mk.injEq .. ▸ List.mem_singleton.mp h
      exact ⟨_, (hosting_verdicts hfront).grown, rfl⟩

/-- A batch in which the given verdicts have been carried out. -/
structure Follows (p : Program) (vs : List (NodeId × Verdict)) (b : Batch) : Prop where
  program : b.program = p.graftAll (Verdict.allSpecs vs)
  report : b.report = Verdict.report vs
  diagnostics : b.diagnostics =
    misplacedMarkers p ++ vs.flatMap fun x => x.2.remarks (className p x.1) x.1

theorem Follows.append {p : Program} {vs : List (NodeId × Verdict)} {b b' : Batch}
    (follows : Follows p vs b) {id : NodeId} {v : Verdict}
    (hprogram : b'.program = b.program.graftAll (v.specs id))
    (hreport : b'.report = v.addTo b.report id)
    (hdiagnostics : b'.diagnostics = b.diagnostics ++ v.remarks (className p id) id) :
    Follows p (vs ++ [(id, v)]) b' := by
  refine ⟨?_, ?_, ?_⟩
  · rw [hprogram, follows.program, Verdict.allSpecs_append_singleton, Program.graftAll_append]
  · rw [hreport, follows.report, Verdict.report_append_singleton]
  · rw [hdiagnostics, follows.diagnostics]
    simp

/-- A type made for a class of the program is attached or found to be there. -/
theorem inject_of_class {q : Program} {id : NodeId} {c : ClassDecl} (hc : q.class? id = some c)
    {m : MapperSpec} (hm : m.host = id) :
    q.inject id m =
      match q.findReserved? id with
      | some found => .ok (q, .alreadyPresent found.1 found.2)
      | none => .ok ((q.attachMapper id m).1, .injected q.size) := by
  simp only [Program.inject, Program.expectClass_eq_ok_iff.mpr hc, hm, ne_eq, not_true_eq_false,
    if_false]
  cases q.findReserved? id with
  | some found => rfl
  | none => rw [Program.attachMapper_eq]

/-- One marked class: its verdict is carried out. -/
theorem step_follows {p : Program} {vs : List (NodeId × Verdict)} {b : Batch} {hosts : List NodeId}
    (follows : Follows p vs b) (hosting : p.Hosting b.program hosts) {id : NodeId} {c : ClassDecl}
    (hc : p.class? id = some c) :
    Follows p (vs ++ [(id, verdict p b.program id)]) (step (.ofProgram p) b id) := by
  obtain ⟨ids, hids, _, _⟩ := hosting.class_ id c hc
  have hname : ((b.program.class? id).map ClassDecl.name).getD "" = className p id := by
    simp [className, hids, hc]
  simp only [step, verdict, hname, hosting.fieldsOf_eq hc, hosting.synthesize_eq hc (.refl _)]
  by_cases hempty : (p.fieldsOf id).isEmpty = true
  · rw [if_pos hempty, if_pos hempty]
    exact follows.append rfl rfl (List.append_nil _).symm
  · rw [if_neg hempty, if_neg hempty]
    cases hs : synthesize p (.ofProgram p) id with
    | error errors => exact follows.append rfl rfl rfl
    | ok m =>
      obtain ⟨fields, d, _, _, rfl⟩ := synthesize_ok hs
      simp only [inject_of_class hids (show (Synthesis.mapper id d.name fields).host = id from rfl)]
      cases b.program.findReserved? id with
      | none => exact follows.append rfl rfl (List.append_nil _).symm
      | some found =>
        obtain ⟨nested, origin⟩ := found
        cases origin with
        | user => exact follows.append rfl rfl rfl
        | synthesized => exact follows.append rfl rfl (List.append_nil _).symm

/-- A run carries out the verdicts on all marked classes. -/
theorem foldl_follows {p : Program} {ids : List NodeId}
    (hids : ∀ id ∈ ids, ∃ c, p.class? id = some c) :
    Follows p (verdicts p ids)
      (ids.foldl (step (.ofProgram p)) { program := p, diagnostics := misplacedMarkers p }) := by
  induction ids using List.reverseRecOn with
  | nil => exact ⟨rfl, rfl, (List.append_nil _).symm⟩
  | append_singleton ids id ih =>
    have hfront : ∀ i ∈ ids, ∃ c, p.class? i = some c :=
      fun i hi => hids i (List.mem_append_left _ hi)
    obtain ⟨c, hc⟩ := hids id (List.mem_append_right _ (List.mem_singleton.mpr rfl))
    have follows := ih hfront
    have hosting := hosting_verdicts hfront
    rw [← follows.program] at hosting
    rw [List.foldl_append, verdicts_append_singleton, ← follows.program]
    exact step_follows follows hosting hc

/-! ### Marked classes -/

theorem candidates_eq (p : Program) :
    candidates p = p.indexed.filterMap fun x =>
      if x.2.isClass && x.2.annotations.contains marker then some x.1 else none := by
  rw [candidates, Program.classes, List.filter_filterMap, List.map_filterMap]
  congr 1
  funext x
  obtain ⟨id, n⟩ := x
  cases n with
  | field f => rfl
  | method m => rfl
  | cls c =>
    by_cases hmarked : marker ∈ c.annotations <;>
      simp [Node.asClass?, Node.isClass, Node.annotations, ClassDecl.isMarked,
        Option.filter, hmarked]

theorem class?_of_mem_candidates {p : Program} {id : NodeId} (h : id ∈ candidates p) :
    ∃ c, p.class? id = some c := by
  obtain ⟨⟨id', c⟩, hmem, rfl⟩ := List.mem_map.mp h
  exact ⟨c, Program.class?_of_mem_classes (List.mem_filter.mp hmem).1⟩

theorem candidates_pairwise (p : Program) : (candidates p).Pairwise (· < ·) := by
  rw [candidates_eq, Program.filterMap_indexed]
  have hself : ∀ {i a : NodeId}, ((p.node? i).bind fun n =>
      if n.isClass && n.annotations.contains marker then some i else none) = some a → a = i := by
    intro i a ha
    obtain ⟨n, _, hn⟩ := Option.bind_eq_some_iff.mp ha
    split at hn
    · exact (Option.some.inj hn).symm
    · cases hn
  refine List.Pairwise.filterMap _ ?_ List.pairwise_lt_range
  intro i j hij a ha b hb
  rw [hself ha, hself hb]
  exact hij

/-- A class whose members are all there does not meet what others got: its verdict is found in the
program before the run. -/
theorem verdict_of_live {p : Program} {ids : List NodeId}
    (hids : ∀ id ∈ ids, ∃ c, p.class? id = some c) {id : NodeId} {c : ClassDecl}
    (hc : p.class? id = some c) (live : ∀ m ∈ c.members, (m : Nat) < p.size) (hid : id ∉ ids) :
    verdict p (p.graftAll (Verdict.allSpecs (verdicts p ids))) id = verdict p p id := by
  have hnot : id ∉ Verdict.select Verdict.isInjected (verdicts p ids) := by
    intro hmem
    have hselected := (Verdict.select_sublist _ _).subset hmem
    rw [map_fst_verdicts] at hselected
    exact hid hselected
  rw [verdict, verdict, (hosting_verdicts hids).findReserved?_eq hc live hnot]

theorem verdict_of_mem_verdicts {p : Program} {ids : List NodeId}
    (hids : ∀ id ∈ ids, ∃ c, p.class? id = some c) (distinct : ids.Nodup) {id : NodeId}
    {c : ClassDecl} (hc : p.class? id = some c) (live : ∀ m ∈ c.members, (m : Nat) < p.size)
    {v : Verdict}
    (h : (id, v) ∈ verdicts p ids) : v = verdict p p id := by
  induction ids using List.reverseRecOn with
  | nil => cases h
  | append_singleton ids last ih =>
    have hfront : ∀ i ∈ ids, ∃ c, p.class? i = some c :=
      fun i hi => hids i (List.mem_append_left _ hi)
    obtain ⟨hnodup, _, hnew⟩ := List.nodup_append.mp distinct
    rw [verdicts_append_singleton] at h
    rcases List.mem_append.mp h with h | h
    · exact ih hfront hnodup h
    · obtain ⟨rfl, rfl⟩ := Prod.mk.injEq .. ▸ List.mem_singleton.mp h
      refine verdict_of_live hfront hc live ?_
      intro hmem
      exact hnew id hmem id (List.mem_singleton.mpr rfl) rfl

/-- In a closed program, classes do not meet. -/
theorem verdicts_of_closed {p : Program} (closed : p.Closed) {ids : List NodeId}
    (hids : ∀ id ∈ ids, ∃ c, p.class? id = some c) (distinct : ids.Nodup) :
    verdicts p ids = ids.map fun id => (id, verdict p p id) := by
  have hself : ∀ x ∈ verdicts p ids, (x.1, verdict p p x.1) = x := by
    rintro ⟨id, v⟩ hx
    have hid : id ∈ ids := by
      rw [← map_fst_verdicts p ids]
      exact List.mem_map.mpr ⟨_, hx, rfl⟩
    obtain ⟨c, hc⟩ := hids id hid
    rw [verdict_of_mem_verdicts hids distinct hc (closed id c hc) hx]
  calc verdicts p ids
      = (verdicts p ids).map fun x => (x.1, verdict p p x.1) :=
        ((List.map_congr_left hself).trans (List.map_id' _)).symm
    _ = ((verdicts p ids).map Prod.fst).map fun id => (id, verdict p p id) := by
        rw [List.map_map]
        rfl
    _ = ids.map fun id => (id, verdict p p id) := by rw [map_fst_verdicts]

theorem run_follows (p : Program) : Follows p (verdicts p (candidates p)) (run true p) :=
  foldl_follows fun _ => class?_of_mem_candidates

end Batch

end FieldAccess
