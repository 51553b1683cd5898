import FieldAccess.Proofs.Isolation

/-! A second run over the same program finds every class that can have an accessor type with one, so
it changes nothing and reports the injected classes among those that had a type before. What it says
is what the first run said, as long as every listed member is there. -/
namespace FieldAccess

/-- Lists in strictly increasing order that pick the same classes are equal. -/
theorem eq_of_increasing {all xs ys : List NodeId} (hxs : xs.Pairwise (· < ·))
    (hys : ys.Pairwise (· < ·)) (hx : xs ⊆ all) (hy : ys ⊆ all)
    (h : ∀ id ∈ all, (id ∈ xs ↔ id ∈ ys)) : xs = ys := by
  have hsame : ∀ id, id ∈ xs ↔ id ∈ ys := by
    intro id
    constructor
    · intro hid
      exact (h id (hx hid)).mp hid
    · intro hid
      exact (h id (hy hid)).mpr hid
  have hperm : xs.Perm ys := (List.perm_ext_iff_of_nodup hxs.nodup hys.nodup).mpr hsame
  refine hperm.eq_of_pairwise ?_ hxs hys
  intro a b _ _ hab hba
  exact absurd hab (Nat.lt_asymm hba)

namespace Program

namespace Hosting

variable {p q : Program} {hosts : List NodeId} (hosting : p.Hosting q hosts)
include hosting

theorem candidates_eq : Batch.candidates q = Batch.candidates p := by
  rw [Batch.candidates_eq, Batch.candidates_eq]
  refine hosting.filterMap_indexed_eq ?_ ?_
  · intro id n n' _ _ hann hkind
    simp only [hann, hkind]
  · intro id n hn
    cases hn with
    | cls _ _ unmarked => simp [Node.annotations, unmarked]
    | method _ _ => rfl

/-- Markers are misplaced at the same nodes, and these have the same owners. -/
theorem misplacedMarkers_eq (owned : p.Owned) :
    Batch.misplacedMarkers q = Batch.misplacedMarkers p := by
  rw [Batch.misplacedMarkers_eq, Batch.misplacedMarkers_eq]
  refine hosting.filterMap_indexed_eq ?_ ?_
  · intro id n n' hn hn' hann hkind
    have hsame : Batch.isMisplaced (id, n') = Batch.isMisplaced (id, n) := by
      simp only [Batch.isMisplaced, hann, hkind]
    simp only [hsame]
    by_cases hmisplaced : Batch.isMisplaced (id, n) = true
    · have hclass : n.isClass = false := by
        simpa using (Bool.and_eq_true_iff.mp hmisplaced).1
      obtain ⟨owner, c, hparent, hc, hanchor⟩ := owned.enclosing hn hclass
      obtain ⟨e, he, rfl⟩ := node?_eq_some_iff.mp hn
      obtain ⟨e', he', hp, _⟩ := hosting.grown id e he
      obtain ⟨d, hd, _⟩ := hosting.grown.class? hc
      have hparent' : q.parent? id = some owner := by
        rw [← hparent]
        simp [parent?, he, he', hp]
      have hanchor' : (q.parent? id).bind q.enclosingClass? = some owner := by
        simp [hparent', enclosingClass?, enclosingWithin, hd]
      rw [if_pos hmisplaced, if_pos hmisplaced, hanchor, hanchor']
    · rw [if_neg hmisplaced, if_neg hmisplaced]
  · intro id n hn
    cases hn with
    | cls _ _ _ => rfl
    | method _ unmarked => simp [Batch.isMisplaced, Node.annotations, unmarked]

theorem className_eq {id : NodeId} {c : ClassDecl} (hc : p.class? id = some c) :
    Batch.className q id = Batch.className p id := by
  obtain ⟨ids, hids, _, _⟩ := hosting.class_ id c hc
  simp [Batch.className, hc, hids]

/-- A verdict reads nothing that has changed but the reserved name. -/
theorem verdict_eq {id : NodeId} {c : ClassDecl} (hc : p.class? id = some c) (r : Program) :
    Batch.verdict q r id = Batch.verdict p r id := by
  rw [Batch.verdict, Batch.verdict, hosting.fieldsOf_eq hc, hosting.synthesize_eq hc hosting.types]

theorem servable_iff {id : NodeId} {c : ClassDecl} (hc : p.class? id = some c) :
    Batch.Servable q id ↔ Batch.Servable p id := by
  rw [Batch.Servable, Batch.Servable, hosting.fieldsOf_eq hc, hosting.catalog_eq hc hosting.types]

/-- In a closed program, a type of the reserved name that was not there before is a synthesized
one. -/
theorem origin_of_new (closed : p.Closed) {id : NodeId} {c : ClassDecl} (hc : p.class? id = some c)
    (hnone : p.findReserved? id = none) {found : NodeId × Origin}
    (hfound : q.findReserved? id = some found) : found.2 = .synthesized := by
  obtain ⟨ids, hids, hnew, _⟩ := hosting.class_ id c hc
  have happend := hosting.grown.membersAs_append stable_headerOf? hc (closed id c hc) hids rfl
  rw [Program.findReserved?_eq, Option.map_eq_none_iff] at hnone
  rw [Program.findReserved?_eq, happend, List.find?_append, hnone, Option.none_or] at hfound
  obtain ⟨x, hx, rfl⟩ := Option.map_eq_some_iff.mp hfound
  obtain ⟨k, hk, hkx⟩ := List.mem_filterMap.mp (List.mem_of_find?_eq_some hx)
  obtain ⟨header, hheader, rfl⟩ := Option.map_eq_some_iff.mp hkx
  obtain ⟨n, hn, hnh⟩ := Option.bind_eq_some_iff.mp hheader
  cases hosting.new k n (hnew k hk) hn with
  | cls _ origin _ =>
    rw [← Option.some.inj hnh]
    exact origin
  | method _ _ => cases hnh

/-- A run over a closed program and a later one say the same about a class. -/
theorem remarks_eq (closed : p.Closed) {id : NodeId} {c : ClassDecl} (hc : p.class? id = some c)
    (hhost : (p.findReserved? id).isSome = true → id ∉ hosts) :
    Batch.remarks q id = Batch.remarks p id := by
  rw [Batch.remarks, Batch.remarks, hosting.fieldsOf_eq hc, hosting.catalog_eq hc hosting.types,
    hosting.className_eq hc]
  cases hr : p.findReserved? id with
  | some found => rw [hosting.findReserved?_eq hc (closed _ _ hc) (hhost (by rw [hr]; rfl)), hr]
  | none =>
    cases hr' : q.findReserved? id with
    | none => rfl
    | some found =>
      obtain ⟨nested, origin⟩ := found
      obtain rfl : origin = .synthesized := hosting.origin_of_new closed hc hr hr'
      rfl

end Hosting

/-- Attaching types to classes keeps a program closed. -/
theorem graftAll_closed {p : Program} (closed : p.Closed) {specs : List (NodeId × MapperSpec)}
    (hspecs : ∀ s ∈ specs, ∃ c, p.class? s.1 = some c) : (p.graftAll specs).Closed := by
  induction specs generalizing p with
  | nil => exact closed
  | cons s specs ih =>
    obtain ⟨c, hc⟩ := hspecs s List.mem_cons_self
    refine ih (closed_attachMapper closed hc) ?_
    intro t ht
    obtain ⟨d, hd⟩ := hspecs t (List.mem_cons_of_mem _ ht)
    obtain ⟨d', hd', _⟩ := (p.extends_attachMapper s.1 s.2).class? hd
    exact ⟨d', hd'⟩

end Program

namespace Batch

/-- A class that got a type, or had one, has one from then on. -/
theorem findReserved?_of_verdict {p : Program} {ids : List NodeId}
    (hids : ∀ id ∈ ids, ∃ c, p.class? id = some c) {id : NodeId} {v : Verdict}
    (h : (id, v) ∈ verdicts p ids) (hv : v.isInjected = true ∨ v.isPresent = true) :
    ((p.graftAll (Verdict.allSpecs (verdicts p ids))).findReserved? id).isSome = true := by
  induction ids using List.reverseRecOn with
  | nil => cases h
  | append_singleton ids last ih =>
    have hfront : ∀ i ∈ ids, ∃ c, p.class? i = some c :=
      fun i hi => hids i (List.mem_append_left _ hi)
    obtain ⟨c, hc⟩ := hids last (List.mem_append_right _ (List.mem_singleton.mpr rfl))
    obtain ⟨d, hd, _⟩ := (hosting_verdicts hfront).grown.class? hc
    rw [verdicts_append_singleton] at h ⊢
    rw [Verdict.allSpecs_append_singleton, Program.graftAll_append]
    rcases List.mem_append.mp h with h | h
    · exact (Program.extends_graftAll _ _).findReserved?_isSome (ih hfront h)
    · obtain ⟨rfl, rfl⟩ := Prod.mk.injEq .. ▸ List.mem_singleton.mp h
      rcases verdict_cases hc (p.graftAll (Verdict.allSpecs (verdicts p ids))) with
        ⟨_, hcase⟩ | ⟨_, _, _, hcase⟩ | ⟨_, found, hfound, _⟩ | ⟨_, hnone, m, hs, hcase⟩
      · simp [hcase, Verdict.isInjected, Verdict.isPresent] at hv
      · simp [hcase, Verdict.isInjected, Verdict.isPresent] at hv
      · exact (Program.extends_graftAll _ _).findReserved?_isSome (by rw [hfound]; rfl)
      · have hname : m.name = mapperName := by
          obtain ⟨fields, host, _, _, rfl⟩ := synthesize_ok hs
          rfl
        have hattached := Program.findReserved?_attachMapper hd hname hnone
        rw [hcase]
        exact congrArg Option.isSome hattached

/-! ### Places in the report -/

namespace Isolates

variable {p : Program} {b : Batch} (isolates : Isolates p b)
include isolates

theorem places_nodup :
    (b.report.injected ++ b.report.alreadyPresent ++ b.report.skipped ++ b.report.failed).Nodup :=
  isolates.places.nodup_iff.mpr isolates.increasing.nodup

theorem injected_subset : b.report.injected ⊆ candidates p := by
  intro id hid
  exact isolates.places.mem_iff.mp (by simp [hid])

theorem skipped_subset : b.report.skipped ⊆ candidates p := by
  intro id hid
  exact isolates.places.mem_iff.mp (by simp [hid])

theorem failed_subset : b.report.failed ⊆ candidates p := by
  intro id hid
  exact isolates.places.mem_iff.mp (by simp [hid])

/-- The classes that a type can be made for are those with a type after the run. -/
theorem served_iff {id : NodeId} (hid : id ∈ candidates p) :
    id ∈ b.report.injected ∨ id ∈ b.report.alreadyPresent ↔ Servable p id := by
  have hplace := isolates.places.mem_iff.mpr hid
  have hskipped := isolates.skipped id hid
  have hfailed := isolates.failed id hid
  obtain ⟨hrest, _, hapart⟩ := List.nodup_append.mp isolates.places_nodup
  obtain ⟨_, _, hapart'⟩ := List.nodup_append.mp hrest
  simp only [List.mem_append] at hplace hapart hapart'
  constructor
  · intro hserved
    have hfields : p.fieldsOf id ≠ [] := fun h =>
      hapart' id hserved id (hskipped.mpr h) rfl
    refine ⟨hfields, ?_⟩
    cases hcatalog : catalog p (.ofProgram p) id with
    | ok fields => exact ⟨fields, rfl⟩
    | error errors =>
      exact absurd rfl (hapart id (Or.inl hserved) id (hfailed.mpr ⟨hfields, errors, hcatalog⟩))
  · rintro ⟨hfields, fields, hok⟩
    rcases hplace with (hserved | hs) | hf
    · exact hserved
    · exact absurd (hskipped.mp hs) hfields
    · obtain ⟨_, errors, he⟩ := hfailed.mp hf
      rw [hok] at he
      cases he

end Isolates

/-! ### Two runs -/

section Twice
variable (p : Program)

theorem hosting_run : p.Hosting (run true p).program (run true p).report.injected := by
  have hosting := hosting_verdicts fun id (hid : id ∈ candidates p) => class?_of_mem_candidates hid
  rw [(run_follows p).program, (run_follows p).report]
  exact hosting

/-- After a run, a class that a type can be made for has one. -/
theorem findReserved?_run {id : NodeId} (hid : id ∈ candidates p) (servable : Servable p id) :
    ((run true p).program.findReserved? id).isSome = true := by
  have hids : ∀ i ∈ candidates p, ∃ c, p.class? i = some c := fun _ => class?_of_mem_candidates
  have hserved := ((run_isolates p).served_iff hid).mpr servable
  rw [(run_follows p).report] at hserved
  rw [(run_follows p).program]
  rcases hserved with h | h
  · obtain ⟨v, hmem, hkind⟩ := Verdict.mem_select.mp h
    exact findReserved?_of_verdict hids hmem (Or.inl hkind)
  · obtain ⟨v, hmem, hkind⟩ := Verdict.mem_select.mp h
    exact findReserved?_of_verdict hids hmem (Or.inr hkind)

theorem candidates_run : candidates (run true p).program = candidates p :=
  (hosting_run p).candidates_eq

theorem injected_rerun : (run true (run true p).program).report.injected = [] := by
  have second := run_isolates (run true p).program
  rw [List.eq_nil_iff_forall_not_mem]
  intro id hmem
  have hid := second.injected_subset hmem
  have hid' : id ∈ candidates p := candidates_run p ▸ hid
  obtain ⟨c, hc⟩ := class?_of_mem_candidates hid'
  have servable := (second.served_iff hid).mp (Or.inl hmem)
  have servable' := ((hosting_run p).servable_iff hc).mp servable
  -- it has a type, so that it stands among those with one
  have hpresent := second.present id hid servable (findReserved?_run p hid' servable')
  obtain ⟨hfront, _, _⟩ := List.nodup_append.mp second.places_nodup
  obtain ⟨hfront, _, _⟩ := List.nodup_append.mp hfront
  exact (List.nodup_append.mp hfront).2.2 id hmem id hpresent rfl

theorem program_rerun : (run true (run true p).program).program = (run true p).program := by
  obtain ⟨specs, hhosts, _, _, hprogram⟩ := (run_isolates (run true p).program).program
  rw [injected_rerun, List.map_eq_nil_iff] at hhosts
  subst hhosts
  rw [hprogram, ← Program.graftAll_eq_withGrafts (by simp)]
  rfl

theorem skipped_rerun :
    (run true (run true p).program).report.skipped = (run true p).report.skipped := by
  have first := run_isolates p
  have second := run_isolates (run true p).program
  have hcandidates := candidates_run p
  refine eq_of_increasing second.ordered.2.2.1 first.ordered.2.2.1
    (hcandidates ▸ second.skipped_subset) first.skipped_subset ?_
  intro id hid
  obtain ⟨c, hc⟩ := class?_of_mem_candidates hid
  rw [second.skipped id (hcandidates.symm ▸ hid), first.skipped id hid,
    (hosting_run p).fieldsOf_eq hc]

theorem failed_rerun :
    (run true (run true p).program).report.failed = (run true p).report.failed := by
  have first := run_isolates p
  have second := run_isolates (run true p).program
  have hosting := hosting_run p
  have hcandidates := candidates_run p
  refine eq_of_increasing second.ordered.2.2.2 first.ordered.2.2.2
    (hcandidates ▸ second.failed_subset) first.failed_subset ?_
  intro id hid
  obtain ⟨c, hc⟩ := class?_of_mem_candidates hid
  rw [second.failed id (hcandidates.symm ▸ hid), first.failed id hid, hosting.fieldsOf_eq hc,
    hosting.catalog_eq hc hosting.types]

/-- Classes that got a type and classes that had one come together in node order. -/
theorem alreadyPresent_rerun :
    (run true (run true p).program).report.alreadyPresent =
      (run true p).report.injected.merge (run true p).report.alreadyPresent := by
  have first := run_isolates p
  have second := run_isolates (run true p).program
  have hplaces := second.places
  rw [injected_rerun, skipped_rerun, failed_rerun, candidates_run, List.nil_append] at hplaces
  have hperm : (run true (run true p).program).report.alreadyPresent.Perm
      ((run true p).report.injected ++ (run true p).report.alreadyPresent) := by
    have hboth := hplaces.trans first.places.symm
    exact (List.perm_append_right_iff _).mp ((List.perm_append_right_iff _).mp hboth)
  have hle : ∀ {ids : List NodeId}, ids.Pairwise (· < ·) →
      ids.Pairwise fun a b => decide (a ≤ b) = true := by
    intro ids hids
    exact hids.imp fun h => decide_eq_true (Nat.le_of_lt h)
  have hmerged : ((run true p).report.injected.merge (run true p).report.alreadyPresent).Pairwise
      fun a b => decide (a ≤ b) = true := by
    refine List.pairwise_merge ?_ ?_ _ _ (hle first.ordered.1) (hle first.ordered.2.1)
    · simpa using fun a b c => Nat.le_trans
    · simpa using Nat.le_total
  refine (hperm.trans (List.merge_perm_append _).symm).eq_of_pairwise
    ?_ (hle second.ordered.2.1) hmerged
  intro a b _ _ hab hba
  exact Nat.le_antisymm (by simpa using hab) (by simpa using hba)

/-- Errors do not depend on the look-up of the reserved name. -/
theorem errors_rerun {p : Program} (owned : p.Owned) :
    (run true (run true p).program).errors = (run true p).errors := by
  have hosting := hosting_run p
  rw [errors_run, errors_run, hosting.misplacedMarkers_eq owned, candidates_run]
  congr 1
  refine List.flatMap_congr ?_
  intro id hid
  obtain ⟨c, hc⟩ := class?_of_mem_candidates hid
  obtain ⟨d, hd, _⟩ := hosting.grown.class? hc
  rw [Batch.remarks_eq hd, hosting.verdict_eq hc, hosting.className_eq hc]
  exact errors_verdict hc hosting.grown

theorem diagnostics_rerun {p : Program} (owned : p.Owned) (closed : p.Closed) :
    (run true (run true p).program).diagnostics = (run true p).diagnostics := by
  have hosting := hosting_run p
  have closed' : (run true p).program.Closed := by
    rw [(run_follows p).program]
    refine Program.graftAll_closed closed ?_
    intro s hs
    obtain ⟨_, c, _, hc, _⟩ := synthesize_ok (synthesize_of_mem_specs hs).2
    exact ⟨c, hc⟩
  rw [(run_decides closed).diagnostics, (run_decides closed').diagnostics,
    hosting.misplacedMarkers_eq owned, candidates_run]
  congr 1
  refine List.flatMap_congr ?_
  intro id hid
  obtain ⟨c, hc⟩ := class?_of_mem_candidates hid
  refine hosting.remarks_eq closed hc ?_
  intro hfound hinjected
  rw [(((run_decides closed).injected id hid).mp hinjected).2] at hfound
  cases hfound

end Twice

end Batch

/-- Two runs with injection, one after the other, over a program, however it was built. The second
leaves the program as it is and injects nothing; it skips and fails the same classes and finds a
type in those that got one or had one, in node order. Its errors are those of the first run, and
where every listed member is there, so is all it says. -/
theorem second_run_changes_nothing {p : Program} (built : p.Built) :
    (Batch.run true (Batch.run true p).program).program = (Batch.run true p).program ∧
      (Batch.run true (Batch.run true p).program).report =
        { injected := []
          alreadyPresent :=
            (Batch.run true p).report.injected.merge (Batch.run true p).report.alreadyPresent
          skipped := (Batch.run true p).report.skipped
          failed := (Batch.run true p).report.failed } ∧
      (Batch.run true (Batch.run true p).program).errors = (Batch.run true p).errors ∧
      (p.Closed →
        (Batch.run true (Batch.run true p).program).diagnostics =
          (Batch.run true p).diagnostics) := by
  refine ⟨Batch.program_rerun p, ?_, Batch.errors_rerun built.owned,
    Batch.diagnostics_rerun built.owned⟩
  rw [← Batch.injected_rerun p, ← Batch.alreadyPresent_rerun p, ← Batch.skipped_rerun p,
    ← Batch.failed_rerun p]

/-- A marked class inside a marked class with a declared type of the reserved name, and persons. -/
def nestedProgram : Program :=
  personFile.toProgram
    |>.addClassWith { name := "Outer", annotations := ["Entity"] }
      (.cls { name := mapperName, annotations := ["Entity"] } ::
        FieldDef.nodes { name := "x", type := .primitive .bool, annotations := ["Entity"] })

theorem nested_second_run :
    nestedProgram.Built ∧ nestedProgram.Closed ∧
      (Batch.run true nestedProgram).report =
        { injected := [0], alreadyPresent := [7], skipped := [8], failed := [] } ∧
      (Batch.run true (Batch.run true nestedProgram).program).report =
        { injected := [], alreadyPresent := [0, 7], skipped := [8], failed := [] } ∧
      (Batch.run true (Batch.run true nestedProgram).program).diagnostics =
        (Batch.run true nestedProgram).diagnostics := by
  have built : nestedProgram.Built :=
    (Program.Built.empty.populateAll personFile.classes).addClassWith _ _
  have closed : nestedProgram.Closed := by decide
  obtain ⟨_, report, _, said⟩ := second_run_changes_nothing built
  have first : (Batch.run true nestedProgram).report =
      { injected := [0], alreadyPresent := [7], skipped := [8], failed := [] } := rfl
  refine ⟨built, closed, first, ?_, said closed⟩
  rw [report, first]
  simp

/-- A class that lists a member which is not there, before a declared type of the reserved name. -/
def earlyProgram : Program :=
  Program.empty.addClassWith { name := "Host", annotations := ["Entity"], members := [9] }
      (FieldDef.nodes { name := "x", type := .primitive .bool } ++ [.cls { name := mapperName }])
    |>.addClassWith { name := "Other", annotations := ["Entity"] }
      (FieldDef.nodes { name := "y", type := .primitive .bool })

/-- The type of another class takes the place of the listed member, so that the warning about the
declared type is not given again. -/
theorem early_member_silences :
    earlyProgram.Built ∧
      (Batch.run true earlyProgram).diagnostics =
        [⟨.warning, Batch.alreadyPresentMessage "Host", 0⟩] ∧
      (Batch.run true (Batch.run true earlyProgram).program).diagnostics = [] :=
  ⟨(Program.Built.empty.addClassWith _ _).addClassWith _ _, rfl, rfl⟩

end FieldAccess
