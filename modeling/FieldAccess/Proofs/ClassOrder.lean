import FieldAccess.Proofs.Emission
import FieldAccess.Proofs.FailedWrites
import FieldAccess.Proofs.Placement
import FieldAccess.Proofs.Supertypes

/-! The order of the classes in a list does not matter. Whichever way they are added to a program, a
run puts each class in the same place of its report, says the same about it, and leaves the same
class behind; only the ids are others. -/
namespace FieldAccess

/-! ### Verdicts under other ids -/

def Verdict.rename (ρ : NodeId → NodeId) : Verdict → Verdict
  | skipped => skipped
  | failed errors => failed errors
  | present origin => present origin
  | injected m => injected (m.rename ρ)

theorem Verdict.kinds_rename (ρ : NodeId → NodeId) (v : Verdict) :
    (v.rename ρ).isInjected = v.isInjected ∧ (v.rename ρ).isPresent = v.isPresent ∧
      (v.rename ρ).isSkipped = v.isSkipped ∧ (v.rename ρ).isFailed = v.isFailed := by
  cases v <;> exact ⟨rfl, rfl, rfl, rfl⟩

theorem Verdict.remarks_rename (ρ : NodeId → NodeId) (v : Verdict) (className : String)
    (id id' : NodeId) :
    ((v.rename ρ).remarks className id').map (fun d => (d.severity, d.message)) =
      (v.remarks className id).map fun d => (d.severity, d.message) := by
  cases v with
  | skipped => rfl
  | injected m => rfl
  | failed errors => simp [Verdict.rename, Verdict.remarks]
  | present origin => cases origin <;> rfl

section Renames

variable {p q : Program} {ρ : NodeId → NodeId} {S : Set NodeId}
  (renames : p.Renames q ρ S) {id : NodeId}
  (hid : id ∈ S) {c : ClassDecl} (hc : p.class? id = some c)
  (htypes : ∀ t, (Hierarchy.ofProgram q).isSequence t = (Hierarchy.ofProgram p).isSequence t)
include renames hid hc htypes

theorem synthesize_rename :
    synthesize q (.ofProgram q) (ρ id) = (synthesize p (.ofProgram p) id).map
      (MapperSpec.rename ρ) := by
  rw [synthesize_of_class (renames.class?_eq hid hc), synthesize_of_class hc,
    renames.catalog_eq hid hc htypes]
  cases catalog p (.ofProgram p) id with
  | error errors => rfl
  | ok fields => exact congrArg Except.ok (Synthesis.mapper_rename ρ id c.name fields)

theorem Batch.verdict_rename (hp : p.findReserved? id = none) (hq : q.findReserved? (ρ id) = none) :
    verdict q q (ρ id) = (verdict p p id).rename ρ := by
  have hempty : (q.fieldsOf (ρ id)).isEmpty = (p.fieldsOf id).isEmpty := by
    rw [renames.fieldsOf_eq hid hc, List.isEmpty_map]
  rw [verdict, verdict, hempty, synthesize_rename renames hid hc htypes, hp, hq]
  cases (p.fieldsOf id).isEmpty with
  | true => rfl
  | false => cases synthesize p (.ofProgram p) id <;> rfl

end Renames

/-! ### Moving a class and its accessor type -/

/-- A node and so many behind it. -/
def span (start width : Nat) : Set NodeId := {id | ∃ k ≤ width, id = start + k}

theorem mem_span_self (start width : Nat) : start ∈ span start width := ⟨0, Nat.zero_le _, rfl⟩

/-- Ids of one span go to another one, and those of a second span to yet another. -/
def relocate (host host' width place place' id : Nat) : Nat :=
  if host ≤ id ∧ id ≤ host + width then host' + (id - host) else place' + (id - place)

theorem relocate_host {host host' width place place' k : Nat} (hk : k ≤ width) :
    relocate host host' width place place' (host + k) = host' + k := by
  rw [relocate, if_pos (by omega)]
  omega

theorem relocate_place {host host' width place place' k : Nat} (hplace : host + width < place) :
    relocate host host' width place place' (place + k) = place' + k := by
  rw [relocate, if_neg (by omega)]
  omega

theorem map_relocated {ρ : Nat → Nat} {start start' width : Nat}
    (h : ∀ k < width, ρ (start + k) = start' + k) :
    (List.range' start width).map ρ = List.range' start' width := by
  rw [List.range'_eq_map_range, List.range'_eq_map_range, List.map_map]
  refine List.map_congr_left ?_
  intro k hk
  exact h k (List.mem_range.mp hk)

namespace ClassDef

variable {c : ClassDef} {n : Node}

/-- Members of a class in a file name no ids. -/
theorem rename_of_mem_nodes (h : n ∈ c.nodes) (ρ : NodeId → NodeId) : n.rename ρ = n := by
  rcases Program.mem_nodes_cases h with ⟨_, rfl⟩ | ⟨_, _, rfl⟩ | ⟨_, _, rfl⟩ | ⟨_, rfl⟩ <;> rfl

theorem within_of_mem_nodes (h : n ∈ c.nodes) (p : Program) (S : Set NodeId) : n.Within p S := by
  rcases Program.mem_nodes_cases h with ⟨_, rfl⟩ | ⟨_, _, rfl⟩ | ⟨_, _, rfl⟩ | ⟨_, rfl⟩
  · trivial
  · rintro body ⟨⟩
    exact ⟨trivial, trivial⟩
  · rintro body ⟨⟩
    exact ⟨⟨trivial, trivial⟩, trivial⟩
  · rintro body ⟨⟩

end ClassDef

namespace Program

variable {p q : Program} {host host' place place' : Nat} {ρ : NodeId → NodeId} {S : Set NodeId}

/-- A class that stands in two programs is the same up to the ids. -/
theorem Laid.node_renames {d : ClassDecl} {ns : List Node} {last : List NodeId}
    (laid : p.Laid host d ns last) (laid' : q.Laid host' d (ns.map (Node.rename ρ)) (last.map ρ))
    (hρ : ∀ k ≤ ns.length, ρ (host + k) = host' + k) (hS : ∀ k ≤ ns.length, host + k ∈ S)
    (hlast : ∀ i ∈ last, i ∈ S) (hns : ∀ n ∈ ns, n.Within p S) {k : Nat} (hk : k ≤ ns.length) :
    ∃ n, p.node? (host + k) = some n ∧
    q.node? (ρ (host + k)) = some (n.rename ρ) ∧ n.Within p S := by
  cases k with
  | zero =>
    refine ⟨_, class?_eq_some_iff.mp laid.decl, ?_, ?_⟩
    · have hmembers :
          (List.range' (host + 1) ns.length).map ρ = List.range' (host' + 1) ns.length := by
        refine map_relocated fun k hk => ?_
        rw [Nat.add_assoc, hρ (1 + k) (by omega), Nat.add_assoc]
      have hdecl := class?_eq_some_iff.mp laid'.decl
      rw [List.length_map] at hdecl
      rw [hρ 0 hk, Node.rename, List.map_append, hmembers]
      exact hdecl
    · intro i hi
      rcases List.mem_append.mp hi with hi | hi
      · obtain ⟨j, hj, rfl⟩ := List.mem_range'.mp hi
        rw [Nat.one_mul, Nat.add_assoc]
        exact hS (1 + j) (by omega)
      · exact hlast i hi
  | succ k =>
    have hlt : k < ns.length := hk
    have hnode := laid.nodes k hlt
    have hnode' := laid'.nodes k (by rw [List.length_map]; exact hlt)
    rw [List.getElem?_eq_getElem hlt, Nat.add_assoc, Nat.add_comm 1 k] at hnode
    rw [List.getElem?_map, List.getElem?_eq_getElem hlt, Nat.add_assoc, Nat.add_comm 1 k] at hnode'
    refine ⟨ns[k], hnode, ?_, hns _ (List.getElem_mem hlt)⟩
    rw [hρ (k + 1) hk]
    exact hnode'

/-- Where a class stands, its members are those right after it and the ones it lists besides. -/
theorem Laid.mem_members {d : ClassDecl} {ns : List Node} {last : List NodeId}
    (laid : q.Laid host d ns last) {x : NodeId × Node} (hx : x ∈ q.members host) :
    x.2 ∈ ns ∨ x.1 ∈ last := by
  simp only [members, laid.decl, List.mem_filterMap, Option.map_eq_some_iff] at hx
  obtain ⟨i, hi, n, hn, rfl⟩ := hx
  rcases List.mem_append.mp hi with hi | hi
  · obtain ⟨j, hj, rfl⟩ := List.mem_range'.mp hi
    rw [Nat.one_mul, laid.nodes j hj] at hn
    exact Or.inl (List.mem_of_getElem? hn)
  · exact Or.inr hi

theorem Laid.nestedWithin {d : ClassDecl} {ns : List Node} {last : List NodeId}
    (laid : q.Laid host d ns last) (hns : ∀ n ∈ ns, n.isClass = false) {levels : Nat}
    (hlast : ∀ i ∈ last, Java.NestedWithin q levels i) : Java.NestedWithin q (levels + 1) host := by
  intro x hx hclass
  rcases laid.mem_members hx with hn | hi
  · rw [hns _ hn] at hclass
    cases hclass
  · exact hlast _ hi

variable {c : ClassDef} {m : MapperSpec}

theorem isClass_of_mem_nodes {n : Node} (h : n ∈ c.nodes) : n.isClass = false := by
  rcases mem_nodes_cases h with ⟨_, rfl⟩ | ⟨_, _, rfl⟩ | ⟨_, _, rfl⟩ | ⟨_, rfl⟩ <;> rfl

theorem isClass_of_mem_methods {n : Node} (h : n ∈ m.nodes) : n.isClass = false := by
  obtain ⟨s, _, rfl⟩ := List.mem_map.mp h
  rfl

theorem map_rename_nodes (ρ : NodeId → NodeId) (c : ClassDef) :
    c.nodes.map (Node.rename ρ) = c.nodes := by
  conv_rhs => rw [← List.map_id c.nodes]
  exact List.map_congr_left fun n hn => ClassDef.rename_of_mem_nodes hn ρ

theorem nodes_rename (ρ : NodeId → NodeId) (m : MapperSpec) :
    (m.rename ρ).nodes = m.nodes.map (Node.rename ρ) := by
  simp only [MapperSpec.nodes, MapperSpec.rename, List.map_map]
  rfl

/-- A class without an accessor type. -/
theorem renames_class (laid : p.Laid host c.decl c.nodes [])
    (laid' : q.Laid host' c.decl c.nodes []) (place place' : Nat) :
    p.Renames q (relocate host host' c.nodes.length place place') (span host c.nodes.length) := by
  rw [← map_rename_nodes (relocate host host' c.nodes.length place place') c] at laid'
  constructor
  · rintro _ ⟨i, hi, rfl⟩ _ ⟨j, hj, rfl⟩ heq
    rw [relocate_host hi, relocate_host hj] at heq
    rw [Nat.add_left_cancel heq]
  · rintro _ ⟨k, hk, rfl⟩
    exact laid.node_renames (S := span host c.nodes.length) laid' (fun k hk => relocate_host hk)
      (fun k hk => ⟨k, hk, rfl⟩) nofun (fun n hn => ClassDef.within_of_mem_nodes hn _ _) hk

/-- A class with its accessor type. -/
theorem renames_served (laid : p.Laid host c.decl c.nodes [place])
    (laid' : q.Laid host' c.decl c.nodes [place']) (hplace : host + c.nodes.length < place)
    (hplace' : host' + c.nodes.length < place') (type : p.Laid place m.classDecl m.nodes [])
    (type' : q.Laid place' m.classDecl
      (m.rename (relocate host host' c.nodes.length place place')).nodes [])
    (hcalls : ∀ n ∈ m.nodes, n.Within p (span host c.nodes.length ∪ span place m.nodes.length)) :
    p.Renames q (relocate host host' c.nodes.length place place')
      (span host c.nodes.length ∪ span place m.nodes.length) := by
  have hfirst : ∀ k ≤ c.nodes.length,
      relocate host host' c.nodes.length place place' (host + k) = host' + k :=
    fun k hk => relocate_host hk
  have hsecond : ∀ k, relocate host host' c.nodes.length place place' (place + k) = place' + k :=
    fun k => relocate_place hplace
  generalize relocate host host' c.nodes.length place place' = ρ at hfirst hsecond type' ⊢
  constructor
  · rintro _ (⟨i, hi, rfl⟩ | ⟨i, hi, rfl⟩) _ (⟨j, hj, rfl⟩ | ⟨j, hj, rfl⟩) heq
    · rw [hfirst i hi, hfirst j hj] at heq
      rw [Nat.add_left_cancel heq]
    · rw [hfirst i hi, hsecond j] at heq
      exact absurd (show host' + i = place' + j from heq) (by omega)
    · rw [hsecond i, hfirst j hj] at heq
      exact absurd (show place' + i = host' + j from heq) (by omega)
    · rw [hsecond i, hsecond j] at heq
      rw [Nat.add_left_cancel heq]
  · rintro _ (⟨k, hk, rfl⟩ | ⟨k, hk, rfl⟩)
    · have hlast : [place].map ρ = [place'] := by
        rw [List.map_singleton, ← Nat.add_zero place, hsecond 0, Nat.add_zero]
      rw [← map_rename_nodes ρ c, ← hlast] at laid'
      refine laid.node_renames laid' hfirst (fun k hk => Or.inl ⟨k, hk, rfl⟩) ?_
        (fun n hn => ClassDef.within_of_mem_nodes hn _ _) hk
      intro i hi
      exact Or.inr ⟨0, Nat.zero_le _, List.mem_singleton.mp hi⟩
    · rw [nodes_rename] at type'
      exact type.node_renames type' (fun k _ => hsecond k) (fun k hk => Or.inr ⟨k, hk, rfl⟩) nofun
        hcalls hk

/-! ### The calls of an accessor type -/

theorem Places.end_lt (places : p.Places host c) : host + c.nodes.length < p.size := by
  cases hlength : c.nodes.length with
  | zero => exact lt_size_of_class? places.decl
  | succ n =>
    refine places.members_lt (List.mem_range'_1.mpr ?_)
    omega

theorem Places.mem_of_pick (places : p.Places host c) {preferred : MethodDecl → Bool}
    {name : String} {arity : Nat} {id : NodeId}
    (h : Catalog.pick preferred (Catalog.instanceMethods p host name arity) = some id) :
    id ∈ span host c.nodes.length ∧ ∃ d, p.method? id = some d := by
  obtain ⟨d, hd⟩ := Catalog.mem_of_pick h
  have hmem := (List.mem_filter.mp hd).1
  refine ⟨?_, d, method?_of_mem_methodsOf hmem⟩
  rw [methodsOf_eq_membersAs, membersAs_eq _ places.decl] at hmem
  obtain ⟨i, hi, hsome⟩ := List.mem_filterMap.mp hmem
  obtain ⟨_, _, heq⟩ := Option.map_eq_some_iff.mp hsome
  obtain rfl : i = id := congrArg Prod.fst heq
  obtain ⟨j, hj, rfl⟩ := List.mem_range'.mp hi
  exact ⟨1 + j, by omega, by rw [Nat.one_mul, Nat.add_assoc]⟩

/-- An accessor type calls methods of its class. -/
theorem Places.within_of_synthesize (places : p.Places host c) {types : Hierarchy}
    (hm : synthesize p types host = .ok m) (grown : p.Extends q) (hS : span host c.nodes.length ⊆ S)
    {n : Node} (hn : n ∈ m.nodes) : n.Within q S := by
  obtain ⟨s, hs, rfl⟩ := List.mem_map.mp hn
  rintro body ⟨⟩
  refine Synthesis.everyCall_of_synthesize nofun nofun hm (fun {_ _ _ id} _ hpick => ?_) hs
  rintro _ ⟨⟩
  obtain ⟨hid, d, hd⟩ := places.mem_of_pick hpick
  exact ⟨hS hid, d, grown.method? hd⟩

/-- The accessor type of a class is the only one nested in it. -/
theorem Places.nestedWithin_run {p : Program} {host : Nat} {c : ClassDef}
    (places : p.Places host c) : Java.NestedWithin (Batch.run true p).program 2 host := by
  by_cases hhost : host ∈ (Batch.run true p).report.injected
  · obtain ⟨m, place, _, _, laid, type⟩ := places.laid_of_injected hhost
    refine laid.nestedWithin (fun n => isClass_of_mem_nodes) ?_
    intro i hi
    rw [List.mem_singleton.mp hi]
    exact type.nestedWithin (fun n => isClass_of_mem_methods) nofun
  · exact (places.laid_of_not_injected hhost).nestedWithin (fun n => isClass_of_mem_nodes) nofun

end Program

/-! ### Two orders -/

namespace Batch

/-- Two runs treat two classes alike: same place in the report, same texts, same source, and the
same nodes up to their ids. -/
structure Alike (b b' : Batch) (id id' : NodeId) : Prop where
  injected : id ∈ b.report.injected ↔ id' ∈ b'.report.injected
  alreadyPresent : id ∈ b.report.alreadyPresent ↔ id' ∈ b'.report.alreadyPresent
  skipped : id ∈ b.report.skipped ↔ id' ∈ b'.report.skipped
  failed : id ∈ b.report.failed ↔ id' ∈ b'.report.failed
  about : b.about id = b'.about id'
  source : ∀ options, Java.emitClass b.program options id = Java.emitClass b'.program options id'
  nodes : ∃ (ρ : NodeId → NodeId) (S : Set NodeId), id ∈ S ∧ ρ id = id' ∧
    b.program.Renames b'.program ρ S

end Batch

theorem ClassDef.complaints_eq (c : ClassDef) (host host' : NodeId) :
    (c.complaints host).map (fun d => (d.severity, d.message)) =
      (c.complaints host').map fun d => (d.severity, d.message) := by
  simp only [complaints, List.map_filterMap]
  refine List.filterMap_congr fun n _ => ?_
  simp only [Batch.complaint?]
  split <;> rfl

namespace Program

section Orders

variable {p q : Program} {host host' : Nat} {c : ClassDef} (places : p.Places host c)
  (places' : q.Places host' c)
  (htypes : ∀ t, (Hierarchy.ofProgram q).isSequence t = (Hierarchy.ofProgram p).isSequence t)
include places places' htypes

theorem verdict_relocate (place place' : Nat) :
    Batch.verdict q q host' =
      (Batch.verdict p p host).rename (relocate host host' c.nodes.length place place') := by
  have renames := renames_class places.laid places'.laid place place'
  have hhost : relocate host host' c.nodes.length place place' host = host' :=
    relocate_host (Nat.zero_le _)
  have hverdict := Batch.verdict_rename renames (mem_span_self host _) places.decl htypes
    places.findReserved?
  rw [hhost] at hverdict
  exact hverdict places'.findReserved?

theorem mem_select_relocate {kind : Verdict → Bool}
    (hkind : ∀ ρ v, kind (Verdict.rename ρ v) = kind v) :
    host ∈ Verdict.select kind (Batch.verdicts p (Batch.candidates p)) ↔
      host' ∈ Verdict.select kind (Batch.verdicts q (Batch.candidates q)) := by
  rw [Batch.mem_select_of_live places.decl fun m hm => places.members_lt hm,
    Batch.mem_select_of_live places'.decl fun m hm => places'.members_lt hm,
    verdict_relocate places places' htypes 0 0, hkind]

/-- The class has the same place in both reports. -/
theorem report_run :
    (host ∈ (Batch.run true p).report.injected ↔ host' ∈ (Batch.run true q).report.injected) ∧
    (host ∈ (Batch.run true p).report.alreadyPresent ↔
      host' ∈ (Batch.run true q).report.alreadyPresent) ∧
    (host ∈ (Batch.run true p).report.skipped ↔ host' ∈ (Batch.run true q).report.skipped) ∧
    (host ∈ (Batch.run true p).report.failed ↔ host' ∈ (Batch.run true q).report.failed) := by
  rw [(Batch.run_follows p).report, (Batch.run_follows q).report]
  refine ⟨?_, ?_, ?_, ?_⟩
  · exact mem_select_relocate places places' htypes fun ρ v => (v.kinds_rename ρ).1
  · exact mem_select_relocate places places' htypes fun ρ v => (v.kinds_rename ρ).2.1
  · exact mem_select_relocate places places' htypes fun ρ v => (v.kinds_rename ρ).2.2.1
  · exact mem_select_relocate places places' htypes fun ρ v => (v.kinds_rename ρ).2.2.2

/-- After the runs, the classes and what was made for them correspond. -/
theorem renames_run : ∃ (ρ : NodeId → NodeId) (S : Set NodeId), host ∈ S ∧ ρ host = host' ∧
    (Batch.run true p).program.Renames (Batch.run true q).program ρ S := by
  have hinjected := (report_run places places' htypes).1
  by_cases hhost : host ∈ (Batch.run true p).report.injected
  · obtain ⟨m, place, hm, hplace, laid, type⟩ := places.laid_of_injected hhost
    obtain ⟨m', place', hm', hplace', laid', type'⟩ := places'.laid_of_injected (hinjected.mp hhost)
    have hmoved : relocate host host' c.nodes.length place place' host = host' :=
      relocate_host (Nat.zero_le _)
    have hspec := synthesize_rename (renames_class places.laid places'.laid place place')
      (mem_span_self host _) places.decl htypes
    rw [hmoved, hm', hm] at hspec
    obtain rfl : m' = m.rename _ := Except.ok.inj hspec
    have hend := places.end_lt
    have hend' := places'.end_lt
    refine ⟨_, span host c.nodes.length ∪ span place m.nodes.length, Or.inl (mem_span_self host _),
      hmoved, ?_⟩
    refine renames_served laid laid' (by omega) (by omega) type type' ?_
    intro n hn
    exact places.within_of_synthesize hm (Batch.hosting_run p).grown Set.subset_union_left hn
  · have hhost' := mt hinjected.mpr hhost
    exact ⟨_, _, mem_span_self host _, relocate_host (Nat.zero_le _),
      renames_class (places.laid_of_not_injected hhost) (places'.laid_of_not_injected hhost') 0 0⟩

theorem source_run (options : Java.Options) :
    Java.emitClass (Batch.run true p).program options host =
      Java.emitClass (Batch.run true q).program options host' := by
  obtain ⟨_, _, hS, rfl, renames⟩ := renames_run places places' htypes
  obtain ⟨_, hclass, _, _⟩ := (Batch.hosting_run p).class_ host _ places.decl
  have hsize := lt_size_of_class? hclass
  have hsize' := lt_size_of_class? (renames.class?_eq hS hclass)
  exact (Java.emitClass_renames renames hS hclass places.nestedWithin_run (by omega) (by omega)
    options).symm

end Orders

end Program

/-- Classes are added to a program, an empty one or any that was built, in one order and in another,
and a run follows. Each class is among those added in the other order, and the runs treat equal
classes alike, wherever they stand. They speak of no other classes than those and the old ones. -/
theorem runs_ignore_class_order {p : Program} (owned : p.Owned) {cs ds : List ClassDef}
    (perm : cs.Perm ds) :
    (∀ x ∈ p.placements cs, ∃ y ∈ p.placements ds, y.2 = x.2) ∧
    (∀ x ∈ p.placements cs, ∀ y ∈ p.placements ds, y.2 = x.2 →
      (Batch.run true (p.populateAll cs).1).Alike (Batch.run true (p.populateAll ds).1) x.1 y.1) ∧
    ∀ d ∈ (Batch.run true (p.populateAll cs).1).diagnostics,
      (∃ c, p.class? d.anchor = some c) ∨ ∃ c, (d.anchor, c) ∈ p.placements cs := by
  refine ⟨?_, ?_, fun d hd => Program.anchor_of_run owned hd⟩
  · rintro ⟨host, c⟩ h
    obtain ⟨host', h'⟩ := Program.exists_mem_placements p (perm.mem_iff.mp (List.of_mem_zip h).2)
    exact ⟨(host', c), h', rfl⟩
  rintro ⟨host, c⟩ h ⟨host', _⟩ h' rfl
  have places := Program.places_populateAll p cs h
  have places' := Program.places_populateAll p ds h'
  have htypes := fun t => (p.isSequence_populateAll_perm perm t).symm
  obtain ⟨hinjected, hpresent, hskipped, hfailed⟩ := Program.report_run places places' htypes
  obtain ⟨ρ, S, hS, hρ, renames⟩ := Program.renames_run places places' htypes
  refine ⟨hinjected, hpresent, hskipped, hfailed, ?_, ?_, ρ, S, hS, hρ, renames⟩
  · rw [Program.about_run owned h, Program.about_run owned h', List.map_append, List.map_append,
      ClassDef.complaints_eq _ host host', Program.verdict_relocate places places' htypes 0 0]
    congr 1
    split
    · exact (Verdict.remarks_rename _ _ _ _ _).symm
    · rfl
  · exact Program.source_run places places' htypes

/-- A class below the sequences. It has no setter for its field. -/
def bagClass : ClassDef :=
  { name := "Bag"
    annotations := ["Entity"]
    supertypes := [.ofName "list"]
    fields := [{ name := "size", type := .primitive .int32, accessors := .get }] }

/-- A class with a sequence field, which is one because of the class above, and a marker out of
place. -/
def noteClass : ClassDef :=
  { name := "Note"
    annotations := ["Entity"]
    fields := [{ name := "tags", type := .ofName "Bag", annotations := ["Entity"] }] }

/-- An old class, to which the two are added. -/
def oldProgram : Program := (Program.empty.addClass { name := "Old" }).1

theorem note_before_bag_alike :
    oldProgram.Owned ∧ [bagClass, noteClass].Perm [noteClass, bagClass] ∧
      (4, noteClass) ∈ oldProgram.placements [bagClass, noteClass] ∧
      (1, noteClass) ∈ oldProgram.placements [noteClass, bagClass] ∧
      (Batch.run true (oldProgram.populateAll [bagClass, noteClass]).1).report.injected = [4] ∧
      (Batch.run true (oldProgram.populateAll [bagClass, noteClass]).1).Alike
        (Batch.run true (oldProgram.populateAll [noteClass, bagClass]).1) 4 1 := by
  have owned : oldProgram.Owned := (Program.Built.empty.addClass _).owned
  have perm : [bagClass, noteClass].Perm [noteClass, bagClass] := .swap _ _ _
  have h : (4, noteClass) ∈ oldProgram.placements [bagClass, noteClass] :=
    List.mem_cons_of_mem _ List.mem_cons_self
  have h' : (1, noteClass) ∈ oldProgram.placements [noteClass, bagClass] := List.mem_cons_self
  exact ⟨owned, perm, h, h', rfl, (runs_ignore_class_order owned perm).2.1 _ h _ h' rfl⟩

end FieldAccess
