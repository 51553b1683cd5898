import FieldAccess.Proofs.Verdicts

/-! A batch run treats every marked class by itself. Its place in the report, what is said about it
and the type it gets are those that the program before the run gives it, whatever happens to the
others. A class that lists members which are not there is the exception: such a member may come into
being as the type of another class. -/
namespace FieldAccess

/-- Two dynamic methods, and two for each field. -/
theorem length_methods_of_synthesize {p : Program} {types : Hierarchy} {id : NodeId}
    {m : MapperSpec} (h : synthesize p types id = .ok m) :
    m.methods.length = 2 + 2 * (p.fieldsOf id).length := by
  obtain ⟨fields, c, hcatalog, _, rfl⟩ := synthesize_ok h
  have hlength := (catalog_ok hcatalog).2.1.length_eq
  rw [hlength, Synthesis.mapper, List.length_cons, List.length_cons, length_typed]
  omega

namespace Batch

/-- What a run says about a class: the faults of its catalog, or that the user declares a type of
the reserved name. -/
def remarks (p : Program) (id : NodeId) : List Diagnostic :=
  if (p.fieldsOf id).isEmpty then []
  else
    match catalog p (.ofProgram p) id with
    | .error errors => errors.map fun e => ⟨.error, e.message, id⟩
    | .ok _ =>
      match p.findReserved? id with
      | some (_, .user) => [⟨.warning, alreadyPresentMessage (className p id), id⟩]
      | _ => []

/-- What a run does, as far as it can be said of every program. -/
structure Isolates (p : Program) (b : Batch) : Prop where
  marked : ∀ id, id ∈ candidates p ↔ ∃ c, p.class? id = some c ∧ marker ∈ c.annotations
  increasing : (candidates p).Pairwise (· < ·)
  places :
    (b.report.injected ++ b.report.alreadyPresent ++ b.report.skipped ++ b.report.failed).Perm
    (candidates p)
  ordered : b.report.injected.Pairwise (· < ·) ∧ b.report.alreadyPresent.Pairwise (· < ·) ∧
    b.report.skipped.Pairwise (· < ·) ∧ b.report.failed.Pairwise (· < ·)
  skipped : ∀ id ∈ candidates p, (id ∈ b.report.skipped ↔ p.fieldsOf id = [])
  failed : ∀ id ∈ candidates p, (id ∈ b.report.failed ↔
    p.fieldsOf id ≠ [] ∧ ∃ errors, catalog p (.ofProgram p) id = .error errors)
  present : ∀ id ∈ candidates p, Servable p id → (p.findReserved? id).isSome = true →
    id ∈ b.report.alreadyPresent
  /-- Behind the old nodes stand the types of the injected classes, which list them as last
  members. -/
  program : ∃ specs : List (NodeId × MapperSpec), specs.map Prod.fst = b.report.injected ∧
    (∀ s ∈ specs, synthesize p (.ofProgram p) s.1 = .ok s.2) ∧
    (∀ g ∈ Graft.layout p.size specs, g.entries.length = 3 + 2 * (p.fieldsOf g.host).length) ∧
    b.program = p.withGrafts (Graft.layout p.size specs)
  errors : b.errors = misplacedMarkers p ++
    (candidates p).flatMap fun id => (remarks p id).filter fun d => d.severity == .error
  /-- About a class with a type of the reserved name, what is said may come from its turn. -/
  diagnostics : ∃ said : List (List Diagnostic), b.diagnostics = misplacedMarkers p ++
    said.flatten ∧ List.Forall₂ (fun id ds => ds = remarks p id ∨ (id ∈ b.report.alreadyPresent ∧
      (ds = [] ∨ ds = [⟨.warning, alreadyPresentMessage (className p id), id⟩])))
        (candidates p) said

/-- What a run does where every listed member is there. -/
structure Decides (p : Program) (b : Batch) : Prop where
  present : ∀ id ∈ candidates p, (id ∈ b.report.alreadyPresent ↔
    Servable p id ∧ (p.findReserved? id).isSome = true)
  injected : ∀ id ∈ candidates p, (id ∈ b.report.injected ↔
    Servable p id ∧ p.findReserved? id = none)
  diagnostics : b.diagnostics = misplacedMarkers p ++ (candidates p).flatMap (remarks p)

theorem mem_candidates {p : Program} {id : NodeId} :
    id ∈ candidates p ↔ ∃ c, p.class? id = some c ∧ marker ∈ c.annotations := by
  rw [candidates_eq, Program.filterMap_indexed, List.mem_filterMap]
  constructor
  · rintro ⟨k, _, hk⟩
    obtain ⟨n, hn, hsome⟩ := Option.bind_eq_some_iff.mp hk
    split at hsome
    · next hmarked =>
      cases hsome
      cases n with
      | cls c =>
        exact ⟨c, Program.class?_eq_some_iff.mpr hn, by
          simpa [Node.isClass, Node.annotations] using hmarked⟩
      | field f => cases hmarked
      | method m => cases hmarked
    · cases hsome
  · rintro ⟨c, hc, hmarked⟩
    have hn := Program.class?_eq_some_iff.mp hc
    refine ⟨id, List.mem_range.mpr (Program.lt_size_of_node? hn), ?_⟩
    simp [hn, Node.isClass, Node.annotations, hmarked]

theorem node?_of_mem_indexed {p : Program} {x : NodeId × Node} (h : x ∈ p.indexed) :
    p.node? x.1 = some x.2 := by
  obtain ⟨⟨e, i⟩, hi, rfl⟩ := List.mem_map.mp h
  exact Program.node?_eq_some_iff.mpr ⟨e, List.mk_mem_zipIdx_iff_getElem?.mp hi, rfl⟩

/-- A marked field or method. -/
def isMisplaced (x : NodeId × Node) : Bool := !x.2.isClass && x.2.annotations.contains marker

/-- The complaint about a marked field or method, at a class. -/
def misplaced (anchor : NodeId) : Diagnostic :=
  ⟨.error, "@" ++ marker ++ " can only be applied to classes", anchor⟩

theorem misplacedMarkers_eq (p : Program) :
    misplacedMarkers p = p.indexed.filterMap fun x =>
      if isMisplaced x then some (misplaced (((p.parent? x.1).bind p.enclosingClass?).getD x.1))
      else none := rfl

/-- A misplaced marker is reported at the class that owns the node. -/
theorem misplacedMarkers_of_owned {p : Program} (owned : p.Owned) :
    List.Forall₂ (fun x d => ∃ owner c, p.parent? x.1 = some owner ∧ p.class? owner = some c ∧
        d = misplaced owner) (p.indexed.filter isMisplaced) (misplacedMarkers p) := by
  have hnodes : ∀ x ∈ p.indexed, p.node? x.1 = some x.2 := fun x => node?_of_mem_indexed
  rw [misplacedMarkers_eq]
  generalize p.indexed = nodes at hnodes ⊢
  induction nodes with
  | nil => exact .nil
  | cons x rest ih =>
    have hrest := ih fun y hy => hnodes y (List.mem_cons_of_mem _ hy)
    rw [List.filter_cons, List.filterMap_cons]
    by_cases hmisplaced : isMisplaced x = true
    · have hkind : x.2.isClass = false := by
        simpa using (Bool.and_eq_true_iff.mp hmisplaced).1
      obtain ⟨owner, c, hparent, hc, hanchor⟩ := owned.enclosing (hnodes x List.mem_cons_self) hkind
      simp only [hmisplaced, if_true, hanchor, Option.getD_some]
      exact .cons ⟨owner, c, hparent, hc, rfl⟩ hrest
    · simp only [hmisplaced]
      exact hrest

/-- One place for each verdict. -/
theorem perm_report (vs : List (NodeId × Verdict)) :
    ((Verdict.report vs).injected ++ (Verdict.report vs).alreadyPresent ++
      (Verdict.report vs).skipped ++ (Verdict.report vs).failed).Perm (vs.map Prod.fst) := by
  induction vs with
  | nil => exact .refl _
  | cons x vs ih =>
    obtain ⟨id, v⟩ := x
    refine List.Perm.trans ?_ (ih.cons id)
    cases v with
    | injected m => exact .refl _
    | present origin =>
      exact (List.perm_middle.append_right _).append_right _
    | skipped =>
      exact List.perm_middle.append_right _
    | failed errors => exact List.perm_middle

/-! ### One class -/

section Verdict
variable {p : Program} {id : NodeId} {c : ClassDecl} (hc : p.class? id = some c)
include hc

theorem isSkipped_verdict (q : Program) :
    (verdict p q id).isSkipped = true ↔ p.fieldsOf id = [] := by
  rcases verdict_cases hc q with ⟨hf, hv⟩ | ⟨hf, _, _, hv⟩ | ⟨⟨hf, _⟩, _, _, hv⟩
    | ⟨⟨hf, _⟩, _, _, _, hv⟩ <;>
    simp [hv, hf, Verdict.isSkipped]

theorem isFailed_verdict (q : Program) :
    (verdict p q id).isFailed = true ↔
      p.fieldsOf id ≠ [] ∧ ∃ errors, catalog p (.ofProgram p) id = .error errors := by
  rcases verdict_cases hc q with
    ⟨hf, hv⟩ | ⟨hf, _, he, hv⟩ | ⟨⟨_, _, he⟩, _, _, hv⟩ | ⟨⟨_, _, he⟩, _, _, _, hv⟩
  · simp [hv, hf, Verdict.isFailed]
  · simp [hv, hf, he, Verdict.isFailed]
  · simp [hv, he, Verdict.isFailed]
  · simp [hv, he, Verdict.isFailed]

theorem isPresent_verdict (q : Program) :
    (verdict p q id).isPresent = true ↔ Servable p id ∧ (q.findReserved? id).isSome = true := by
  rcases verdict_cases hc q with
    ⟨hf, hv⟩ | ⟨hf, _, he, hv⟩ | ⟨servable, _, hr, hv⟩ | ⟨servable, hr, _, _, hv⟩
  · simp [hv, Verdict.isPresent, Servable, hf]
  · simp [hv, Verdict.isPresent, Servable, he]
  · simp [hv, Verdict.isPresent, servable, hr]
  · simp [hv, Verdict.isPresent, hr]

theorem isInjected_verdict (q : Program) :
    (verdict p q id).isInjected = true ↔ Servable p id ∧ q.findReserved? id = none := by
  rcases verdict_cases hc q with
    ⟨hf, hv⟩ | ⟨hf, _, he, hv⟩ | ⟨servable, _, hr, hv⟩ | ⟨servable, hr, _, _, hv⟩
  · simp [hv, Verdict.isInjected, Servable, hf]
  · simp [hv, Verdict.isInjected, Servable, he]
  · simp [hv, Verdict.isInjected, hr]
  · simp [hv, Verdict.isInjected, servable, hr]

theorem remarks_eq : remarks p id = (verdict p p id).remarks (className p id) id := by
  unfold remarks
  rcases verdict_cases hc p with
    ⟨hf, hv⟩ | ⟨hf, _, he, hv⟩ | ⟨⟨hf, _, he⟩, found, hr, hv⟩ | ⟨⟨hf, _, he⟩, hr, _, _, hv⟩
  · simp [hv, hf, Verdict.remarks]
  · simp [hv, hf, he, Verdict.remarks]
  · obtain ⟨nested, origin⟩ := found
    cases origin <;> simp [hv, hf, he, hr, Verdict.remarks]
  · simp [hv, hf, he, hr, Verdict.remarks]

/-- What is said about a class is known before the run, unless a type of the reserved name is found
when its turn comes. -/
theorem remarks_verdict {q : Program} (hq : p.Extends q) :
    (verdict p q id).remarks (className p id) id = remarks p id ∨
      (Servable p id ∧ (verdict p q id).isPresent = true ∧
        ((verdict p q id).remarks (className p id) id = [] ∨
          (verdict p q id).remarks (className p id) id =
            [⟨.warning, alreadyPresentMessage (className p id), id⟩])) := by
  unfold remarks
  rcases verdict_cases hc q with
    ⟨hf, hv⟩ | ⟨hf, _, he, hv⟩ | ⟨servable, ⟨nested, origin⟩, _, hv⟩ | ⟨⟨hf, _, he⟩, hr, _, _, hv⟩
  · exact Or.inl (by simp [hv, hf, Verdict.remarks])
  · exact Or.inl (by simp [hv, hf, he, Verdict.remarks])
  · refine Or.inr ⟨servable, by rw [hv]; rfl, ?_⟩
    rw [hv]
    cases origin with
    | user => exact Or.inr rfl
    | synthesized => exact Or.inl rfl
  · have hnone : p.findReserved? id = none := by
      cases hp : p.findReserved? id with
      | none => rfl
      | some found =>
        have hsome := hq.findReserved?_isSome (by rw [hp]; rfl)
        rw [hr] at hsome
        cases hsome
    exact Or.inl (by simp [hv, hf, he, hnone, Verdict.remarks])

omit hc in
/-- There is no error about a class that a type can be made for. -/
theorem errors_of_servable (servable : Servable p id) :
    (remarks p id).filter (fun d => d.severity == .error) = [] := by
  obtain ⟨hf, fields, hok⟩ := servable
  cases hr : p.findReserved? id with
  | none => simp [remarks, hf, hok, hr]
  | some found =>
    obtain ⟨nested, origin⟩ := found
    cases origin <;> simp [remarks, hf, hok, hr]

/-- Errors about a class do not depend on the look-up. -/
theorem errors_verdict {q : Program} (hq : p.Extends q) :
    ((verdict p q id).remarks (className p id) id).filter (fun d => d.severity == .error) =
      (remarks p id).filter fun d => d.severity == .error := by
  rcases remarks_verdict hc hq with heq | ⟨servable, _, hnone | hwarning⟩
  · rw [heq]
  · rw [hnone, errors_of_servable servable]
    rfl
  · rw [hwarning, errors_of_servable servable]
    rfl

end Verdict

/-! ### The whole run -/

/-- A place that does not depend on the look-up. -/
theorem mem_select_verdicts {p : Program} {id : NodeId} (hid : id ∈ candidates p)
    {kind : Verdict → Bool} {P : Prop} (h : ∀ q, p.Extends q → (kind (verdict p q id) = true ↔ P)) :
    id ∈ Verdict.select kind (verdicts p (candidates p)) ↔ P := by
  have hids : ∀ i ∈ candidates p, ∃ c, p.class? i = some c := fun _ => class?_of_mem_candidates
  rw [Verdict.mem_select]
  constructor
  · rintro ⟨v, hmem, hkind⟩
    obtain ⟨q, hq, rfl⟩ := exists_of_mem_verdicts hids hmem
    exact (h q hq).mp hkind
  · intro hP
    rw [← map_fst_verdicts p (candidates p)] at hid
    obtain ⟨⟨_, v⟩, hmem, rfl⟩ := List.mem_map.mp hid
    obtain ⟨q, hq, rfl⟩ := exists_of_mem_verdicts hids hmem
    exact ⟨_, hmem, (h q hq).mpr hP⟩

theorem severity_misplacedMarkers {p : Program} {d : Diagnostic} (h : d ∈ misplacedMarkers p) :
    d.severity = .error := by
  rw [misplacedMarkers_eq] at h
  obtain ⟨x, _, hx⟩ := List.mem_filterMap.mp h
  split at hx
  · rw [← Option.some.inj hx]
    rfl
  · cases hx

/-- Verdicts were found by looking up in programs grown from the first. -/
theorem exists_of_mem_run {p : Program} {id : NodeId} {v : Verdict}
    (h : (id, v) ∈ verdicts p (candidates p)) :
    (∃ c, p.class? id = some c) ∧ ∃ q, p.Extends q ∧ v = verdict p q id := by
  have hids : ∀ i ∈ candidates p, ∃ c, p.class? i = some c := fun _ => class?_of_mem_candidates
  refine ⟨hids id ?_, exists_of_mem_verdicts hids h⟩
  rw [← map_fst_verdicts p (candidates p)]
  exact List.mem_map.mpr ⟨_, h, rfl⟩

/-- The specs of a run are those that synthesis gives before it. -/
theorem synthesize_of_mem_specs {p : Program} {s : NodeId × MapperSpec}
    (hs : s ∈ Verdict.allSpecs (verdicts p (candidates p))) :
    (s.1 : Nat) < p.size ∧ synthesize p (.ofProgram p) s.1 = .ok s.2 := by
  obtain ⟨⟨id, v⟩, hmem, hspec⟩ := List.mem_flatMap.mp hs
  obtain ⟨⟨c, hc⟩, q, _, rfl⟩ := exists_of_mem_run hmem
  rcases verdict_cases hc q with ⟨_, hv⟩ | ⟨_, _, _, hv⟩ | ⟨_, _, _, hv⟩ | ⟨_, _, m, hm, hv⟩
  · simp [hv, Verdict.specs] at hspec
  · simp [hv, Verdict.specs] at hspec
  · simp [hv, Verdict.specs] at hspec
  · obtain rfl : s = (id, m) := by simpa [hv, Verdict.specs] using hspec
    exact ⟨Program.lt_size_of_class? hc, hm⟩

theorem errors_run (p : Program) :
    (run true p).errors = misplacedMarkers p ++
      (candidates p).flatMap fun id => (remarks p id).filter fun d => d.severity == .error := by
  have hmarkers : (misplacedMarkers p).filter (fun d => d.severity == .error) =
      misplacedMarkers p := by
    rw [List.filter_eq_self]
    intro d hd
    simp [severity_misplacedMarkers hd]
  rw [errors, (run_follows p).diagnostics, List.filter_append, hmarkers, List.filter_flatMap]
  conv_rhs => rw [← map_fst_verdicts p (candidates p), List.flatMap_map]
  congr 1
  refine List.flatMap_congr ?_
  rintro ⟨id, v⟩ hx
  obtain ⟨⟨c, hc⟩, q, hq, rfl⟩ := exists_of_mem_run hx
  exact errors_verdict hc hq

theorem diagnostics_run (p : Program) :
    ∃ said : List (List Diagnostic), (run true p).diagnostics = misplacedMarkers p ++ said.flatten ∧
      List.Forall₂ (fun id ds => ds = remarks p id ∨ (id ∈ (run true p).report.alreadyPresent ∧
        (ds = [] ∨ ds = [⟨.warning, alreadyPresentMessage (className p id), id⟩])))
        (candidates p) said := by
  refine ⟨(verdicts p (candidates p)).map fun x => x.2.remarks (className p x.1) x.1, ?_, ?_⟩
  · rw [(run_follows p).diagnostics, List.flatMap_def]
  have hids := map_fst_verdicts p (candidates p)
  generalize hvs : verdicts p (candidates p) = vs at hids
  rw [← hids, List.forall₂_map_left_iff, List.forall₂_map_right_iff, List.forall₂_same,
    (run_follows p).report, hvs]
  rintro ⟨id, v⟩ hx
  obtain ⟨⟨c, hc⟩, q, hq, rfl⟩ := exists_of_mem_run (hvs ▸ hx)
  rcases remarks_verdict hc hq with heq | ⟨_, hpresent, hsaid⟩
  · exact Or.inl heq
  · exact Or.inr ⟨Verdict.mem_select.mpr ⟨_, hx, hpresent⟩, hsaid⟩

theorem select_increasing (p : Program) (kind : Verdict → Bool) :
    (Verdict.select kind (verdicts p (candidates p))).Pairwise (· < ·) := by
  have hsub := Verdict.select_sublist kind (verdicts p (candidates p))
  rw [map_fst_verdicts] at hsub
  exact (candidates_pairwise p).sublist hsub

theorem program_run (p : Program) :
    ∃ specs : List (NodeId × MapperSpec), specs.map Prod.fst = (run true p).report.injected ∧
      (∀ s ∈ specs, synthesize p (.ofProgram p) s.1 = .ok s.2) ∧
      (∀ g ∈ Graft.layout p.size specs, g.entries.length = 3 + 2 * (p.fieldsOf g.host).length) ∧
      (run true p).program = p.withGrafts (Graft.layout p.size specs) := by
  refine ⟨Verdict.allSpecs (verdicts p (candidates p)), ?_, ?_, ?_, ?_⟩
  · rw [(run_follows p).report, Verdict.map_fst_allSpecs]
    rfl
  · intro s hs
    exact (synthesize_of_mem_specs hs).2
  · intro g hg
    have hlength : g.spec.methods.length = 2 + 2 * (p.fieldsOf g.host).length :=
      length_methods_of_synthesize (synthesize_of_mem_specs (Graft.mem_layout hg)).2
    simp only [Graft.entries, List.length_cons, List.length_map]
    omega
  · rw [(run_follows p).program]
    exact Program.graftAll_eq_withGrafts fun s hs => (synthesize_of_mem_specs hs).1

theorem run_isolates (p : Program) : Isolates p (run true p) where
  marked _ := mem_candidates
  increasing := candidates_pairwise p
  places := by
    have hperm := perm_report (verdicts p (candidates p))
    rw [map_fst_verdicts] at hperm
    rw [(run_follows p).report]
    exact hperm
  ordered := by
    rw [(run_follows p).report]
    exact ⟨select_increasing p _, select_increasing p _, select_increasing p _,
      select_increasing p _⟩
  skipped id hid := by
    obtain ⟨c, hc⟩ := class?_of_mem_candidates hid
    rw [(run_follows p).report]
    exact mem_select_verdicts hid fun q _ => isSkipped_verdict hc q
  failed id hid := by
    obtain ⟨c, hc⟩ := class?_of_mem_candidates hid
    rw [(run_follows p).report]
    exact mem_select_verdicts hid fun q _ => isFailed_verdict hc q
  present id hid servable hfound := by
    obtain ⟨c, hc⟩ := class?_of_mem_candidates hid
    rw [(run_follows p).report]
    refine (mem_select_verdicts hid fun q hq => ?_).mpr trivial
    rw [isPresent_verdict hc]
    exact iff_of_true ⟨servable, hq.findReserved?_isSome hfound⟩ trivial
  program := program_run p
  errors := errors_run p
  diagnostics := diagnostics_run p

/-- Where every listed member is there, a class has its place by the look-up before the run. -/
theorem mem_select_of_closed {p : Program} (closed : p.Closed) {id : NodeId}
    (hid : id ∈ candidates p) (kind : Verdict → Bool) :
    id ∈ Verdict.select kind (verdicts p (candidates p)) ↔ kind (verdict p p id) = true := by
  rw [Verdict.mem_select, verdicts_of_closed closed (fun _ => class?_of_mem_candidates)
    (candidates_pairwise p).nodup]
  simp [hid]

theorem run_decides {p : Program} (closed : p.Closed) : Decides p (run true p) where
  present id hid := by
    obtain ⟨c, hc⟩ := class?_of_mem_candidates hid
    rw [(run_follows p).report]
    exact (mem_select_of_closed closed hid _).trans (isPresent_verdict hc p)
  injected id hid := by
    obtain ⟨c, hc⟩ := class?_of_mem_candidates hid
    rw [(run_follows p).report]
    exact (mem_select_of_closed closed hid _).trans (isInjected_verdict hc p)
  diagnostics := by
    rw [(run_follows p).diagnostics, verdicts_of_closed closed (fun _ => class?_of_mem_candidates)
      (candidates_pairwise p).nodup, List.flatMap_map]
    congr 1
    refine List.flatMap_congr ?_
    intro id hid
    obtain ⟨c, hc⟩ := class?_of_mem_candidates hid
    exact (remarks_eq hc).symm

end Batch

/-- A run over a program, however it was built. One error stands for each marked field and method,
at the class that owns it. With injection, each marked class has one place in the report, by its
fields and its catalog; the program afterwards is the one before with the types of the injected
classes behind it; no warning but that of a declared type occurs. Where every listed member is
there, the look-up before the run decides between the last two places, and all diagnostics are known
before the run. Without injection nothing else happens. -/
theorem runs_treat_classes_apart {p : Program} (built : p.Built) :
    List.Forall₂ (fun x d => ∃ owner c, p.parent? x.1 = some owner ∧ p.class? owner = some c ∧
        d = Batch.misplaced owner) (p.indexed.filter Batch.isMisplaced) (Batch.misplacedMarkers p) ∧
      Batch.Isolates p (Batch.run true p) ∧
      (p.Closed → Batch.Decides p (Batch.run true p)) ∧
      Batch.run false p = { program := p, diagnostics := Batch.misplacedMarkers p } :=
  ⟨Batch.misplacedMarkers_of_owned built.owned, Batch.run_isolates p, Batch.run_decides, rfl⟩

/-- A class without a field, one with a marked field and no accessors, one whose user declares a
type of the reserved name, and one that gets its type. All are marked. -/
def mixedProgram : Program :=
  Program.empty.addClassWith { name := "Bare", annotations := ["Entity"] } []
    |>.addClassWith { name := "Broken", annotations := ["Entity"] }
      [.field { name := "w", type := .string, annotations := ["Entity"] }]
    |>.addClassWith { name := "Named", annotations := ["Entity"] }
      (.cls { name := mapperName } :: FieldDef.nodes { name := "x", type := .primitive .bool })
    |>.addClassWith { name := "Fresh", annotations := ["Entity"] }
      (FieldDef.nodes { name := "y", type := .primitive .bool })

theorem mixed_classes_apart :
    mixedProgram.Built ∧ mixedProgram.Closed ∧
      (3 ∈ (Batch.run true mixedProgram).report.alreadyPresent ∧
        8 ∈ (Batch.run true mixedProgram).report.injected) ∧
      (Batch.run true mixedProgram).diagnostics =
        Batch.misplacedMarkers mixedProgram ++
          (Batch.remarks mixedProgram 1 ++ Batch.remarks mixedProgram 3) := by
  have built : mixedProgram.Built :=
    ((((Program.Built.empty.addClassWith _ _).addClassWith _ _).addClassWith _ _).addClassWith _ _)
  have closed : mixedProgram.Closed := by decide
  have decides := (runs_treat_classes_apart built).2.2.1 closed
  refine ⟨built, closed, ⟨?_, ?_⟩, ?_⟩
  · exact (decides.present 3 (by decide)).mpr ⟨⟨nofun, _, rfl⟩, rfl⟩
  · exact (decides.injected 8 (by decide)).mpr ⟨⟨nofun, _, rfl⟩, rfl⟩
  · exact decides.diagnostics

/-- Two marked classes with a field each. The second lists further members. -/
def pairProgram (listed : List NodeId) : Program :=
  Program.empty.addClassWith { name := "First", annotations := ["Entity"] }
      (FieldDef.nodes { name := "x", type := .primitive .bool })
    |>.addClassWith { name := "Second", annotations := ["Entity"], members := listed }
      (FieldDef.nodes { name := "y", type := .primitive .bool })

/-- The first class gets its type where the second expects a member, and the second gets none. -/
theorem pair_meets :
    (pairProgram [8]).Built ∧ Batch.Servable (pairProgram [8]) 4 ∧
      (pairProgram [8]).findReserved? 4 = none ∧
      (Batch.run true (pairProgram [8])).report.injected = [0] ∧
      (Batch.run true (pairProgram [8])).report.alreadyPresent = [4] :=
  ⟨(Program.Built.empty.addClassWith _ _).addClassWith _ _, ⟨nofun, _, rfl⟩, rfl, rfl, rfl⟩

end FieldAccess
