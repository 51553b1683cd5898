import FieldAccess.Proofs.FailedWrites
import FieldAccess.Proofs.Isolation
import FieldAccess.Proofs.PortableFiles

/-! Types of synthesized methods. All but one come from the fields; the type of the instance is made
of the name of the class, which nobody has looked at. So a program survives JSON after a run exactly
if the names of the classes that got an accessor type are names of nominal types. -/
namespace FieldAccess

namespace Program

variable {W : Scope} {p : Program}

theorem inScope_attachMapper {host : Nat} (hhost : host < p.size) (m : MapperSpec)
    (hids : ∀ id < (p.attachMapper host m).1.size, W.node id) :
    (p.attachMapper host m).1.InScope W ↔ p.InScope W ∧ ∀ s ∈ m.methods, s.toDecl.InScope W := by
  rw [size_attachMapper] at hids
  have hclass := inScope_attach hhost (fun id hid => hids id (by omega)) (.cls m.classDecl)
  have hdecl : (Node.cls m.classDecl).InScope W :=
    ⟨by simp [MapperSpec.classDecl], by simp [MapperSpec.classDecl]⟩
  have hlt : p.size < (p.attach host (.cls m.classDecl)).1.size := by rw [size_attach]; omega
  have hmethods := inScope_attachAll hlt (m.methods.map fun s => .method s.toDecl)
    (fun id hid => hids id (by rw [size_attach, List.length_map] at hid; omega))
  rw [attachMapper_eq, hmethods, hclass, List.forall_mem_map, and_iff_left hdecl]
  rfl

theorem inScope_graftAll (specs : List (NodeId × MapperSpec))
    (hhosts : ∀ s ∈ specs, (s.1 : Nat) < p.size)
    (hids : ∀ id < (p.graftAll specs).size, W.node id) :
    (p.graftAll specs).InScope W ↔
      p.InScope W ∧ ∀ s ∈ specs, ∀ m ∈ s.2.methods, m.toDecl.InScope W := by
  induction specs generalizing p with
  | nil => simp [graftAll]
  | cons s specs ih =>
    have hgrown := (p.extends_attachMapper s.1 s.2).size_le
    have hle := (extends_graftAll (p.attachMapper s.1 s.2).1 specs).size_le
    have hfirst := inScope_attachMapper (hhosts s List.mem_cons_self) s.2
      fun id hid => hids id (Nat.lt_of_lt_of_le hid hle)
    refine (ih (fun t ht => ?_) hids).trans ?_
    · exact Nat.lt_of_lt_of_le (hhosts t (List.mem_cons_of_mem _ ht)) hgrown
    · rw [hfirst, List.forall_mem_cons, and_assoc]

end Program

namespace TypeDesc

theorem Parsed.erasure {t : TypeDesc} (h : t.Parsed) : t.erasure.Parsed :=
  parsed_iff_readable.mpr h.readable.erasure

theorem Parsed.toBoxed {t : TypeDesc} (h : t.Parsed) : t.toBoxed.Parsed :=
  parsed_iff_readable.mpr h.readable.toBoxed

theorem parsed_any : any.Parsed := ⟨"any", by decide⟩

theorem parsed_string : string.Parsed := ⟨"string", by decide⟩

end TypeDesc

/-! ### One accessor type -/

/-- The declared type is that of some text, and the accessors have ids of 32 bits. -/
structure FieldDesc.Portable (f : FieldDesc) : Prop where
  type : f.type.declared.Parsed
  getter : f.getter < idLimit
  setter : f.setter < idLimit

namespace Synthesis

variable {f : FieldDesc}

theorem inScope_getterCall (hf : f.Portable) : (getterCall f).InScope .portable :=
  ⟨trivial, hf.getter, trivial⟩

theorem inScope_setterCall (hf : f.Portable) {value : Expr} (hv : value.InScope .portable) :
    (setterCall f value).InScope .portable :=
  ⟨trivial, hf.setter, hv, trivial⟩

theorem inScope_assignSequence (hf : f.Portable) (name : String) :
    Block.InScope .portable (assignSequence f (.var name)) := by
  have hread := inScope_getterCall hf
  have hwrite : (setterCall f (.var name)).InScope .portable := inScope_setterCall hf trivial
  refine ⟨⟨hread, ⟨?_, ?_, trivial⟩, hwrite, trivial⟩, trivial⟩
  · exact ⟨hread, trivial, trivial⟩
  · exact ⟨hread, trivial, trivial, trivial⟩

theorem inScope_setCase (hf : f.Portable) : Block.InScope .portable (setCase f) := by
  have htype := hf.type
  unfold setCase
  cases hkind : f.type with
  | scalar declared =>
    rw [hkind] at htype
    exact ⟨inScope_setterCall hf ⟨htype.toBoxed.erasure, trivial⟩, trivial⟩
  | sequence declared =>
    rw [hkind] at htype
    exact ⟨⟨htype.erasure, htype.erasure, trivial⟩, inScope_assignSequence hf _⟩

theorem inScope_getCase (hf : f.Portable) : Block.InScope .portable (getCase f) :=
  ⟨inScope_getterCall hf, trivial⟩

theorem inScope_dispatch {fields : List FieldDesc} {body : FieldDesc → Block}
    (h : ∀ f ∈ fields, Block.InScope .portable (body f)) :
    Block.InScope .portable (dispatch fields body) := by
  refine ⟨⟨trivial, Block.casesInScope_iff.mpr ?_, trivial, trivial⟩, trivial⟩
  intro c hc
  obtain ⟨f, hf, rfl⟩ := List.mem_map.mp (Assoc.mem_ofPairs hc)
  exact h f hf

theorem inScope_typedSet {host : TypeDesc} (hhost : host.Parsed) (hf : f.Portable) :
    (typedSet host f).toDecl.InScope .portable where
  params := by simpa [MethodSpec.toDecl, typedSet, hostParam] using ⟨hhost, hf.type⟩
  returns := TypeDesc.parsed_void
  body := by
    rintro b ⟨⟩
    unfold typedSet
    cases f.type with
    | scalar declared => exact ⟨inScope_setterCall hf trivial, trivial⟩
    | sequence declared => exact inScope_assignSequence hf _

theorem inScope_typedGet {host : TypeDesc} (hhost : host.Parsed) (hf : f.Portable) :
    (typedGet host f).toDecl.InScope .portable where
  params q hq := by
    cases List.mem_singleton.mp hq
    exact hhost
  returns := hf.type
  body := by
    rintro b ⟨⟩
    exact inScope_getCase hf

/-- Where the fields are portable, the name of the host decides. -/
theorem inScope_mapper {host : NodeId} {hostName : String} {fields : List FieldDesc}
    (hfields : ∀ f ∈ fields, f.Portable) :
    (∀ s ∈ (mapper host hostName fields).methods, s.toDecl.InScope .portable) ↔
      (TypeDesc.ofName hostName).Parsed := by
  constructor
  · intro h
    exact (h _ List.mem_cons_self).params (hostParam (.ofName hostName)) List.mem_cons_self
  · intro hhost s hs
    rcases Accessor.ServesOnly.mem_methods hs with rfl | rfl | ⟨f, hf, rfl | rfl⟩
    · refine ⟨?_, TypeDesc.parsed_void, ?_⟩
      · simpa [MethodSpec.toDecl, dynamicSet, hostParam] using
          ⟨hhost, TypeDesc.parsed_string, TypeDesc.parsed_any⟩
      · rintro b ⟨⟩
        exact inScope_dispatch fun f hf => inScope_setCase (hfields f hf)
    · refine ⟨?_, TypeDesc.parsed_any, ?_⟩
      · simpa [MethodSpec.toDecl, dynamicGet, hostParam] using ⟨hhost, TypeDesc.parsed_string⟩
      · rintro b ⟨⟩
        exact inScope_dispatch fun f hf => inScope_getCase (hfields f hf)
    · exact inScope_typedSet hhost (hfields f hf)
    · exact inScope_typedGet hhost (hfields f hf)

end Synthesis

/-! ### A run -/

theorem Program.InScope.node? {W : Scope} {p : Program} (hp : p.InScope W) {id : NodeId} {n : Node}
    (h : p.node? id = some n) : n.InScope W := by
  obtain ⟨e, he, rfl⟩ := Program.node?_eq_some_iff.mp h
  exact (hp.nodes e (List.mem_of_getElem? he)).2

theorem Catalog.portable {p : Program} (hp : p.InScope .portable) (hsize : p.size ≤ idLimit)
    {types : Hierarchy} {owner : NodeId} {fields : List FieldDesc}
    (h : catalog p types owner = .ok fields) :
    ∀ f ∈ fields, f.Portable := by
  intro f hf
  obtain ⟨_, hall, _⟩ := catalog_ok h
  obtain ⟨entry, hentry, described⟩ := exists_entry hall hf
  obtain ⟨g, hg, _⟩ := method?_of_pick described.getter
  obtain ⟨s, hs, _⟩ := method?_of_pick described.setter
  have fits : ∀ {id m}, p.method? id = some m → id < idLimit := fun hm =>
    Nat.lt_of_lt_of_le (Program.lt_size_of_node? (Program.method?_eq_some_iff.mp hm)) hsize
  refine ⟨?_, fits hg, fits hs⟩
  rw [described.type, FieldType.declared_classify]
  rw [Program.fieldsOf_eq_membersAs] at hentry
  obtain ⟨n, hn, hfield⟩ := Program.mem_membersAs hentry
  cases n with
  | field decl =>
    cases hfield
    exact hp.node? hn
  | cls c => cases hfield
  | method m => cases hfield

/-- A program survives a run if it did before and the classes that get an accessor type have names
of nominal types. -/
theorem Batch.inScope_run {p : Program} (hsize : (run true p).program.size ≤ idLimit) :
    (run true p).program.InScope .portable ↔ p.InScope .portable ∧
      ∀ id ∈ (run true p).report.injected, ∀ c, p.class? id = some c →
      (TypeDesc.ofName c.name).Parsed := by
  obtain ⟨specs, hinjected, hsynth, -, hprogram⟩ := program_run p
  have hhosts : ∀ s ∈ specs, (s.1 : Nat) < p.size := by
    intro s hs
    obtain ⟨_, _, _, hc, _⟩ := synthesize_ok (hsynth s hs)
    exact Program.lt_size_of_class? hc
  rw [hprogram, ← Program.graftAll_eq_withGrafts hhosts] at hsize ⊢
  have hsmall := Nat.le_trans (p.extends_graftAll specs).size_le hsize
  rw [Program.inScope_graftAll specs hhosts fun id hid => Nat.lt_of_lt_of_le hid hsize]
  refine and_congr_right fun hp => ?_
  -- each type that was attached is portable if the name of its host is
  have hspec : ∀ s ∈ specs, ∃ c, p.class? s.1 = some c ∧
      ((∀ m ∈ s.2.methods, m.toDecl.InScope .portable) ↔ (TypeDesc.ofName c.name).Parsed) := by
    intro s hs
    obtain ⟨fields, c, hcat, hc, heq⟩ := synthesize_ok (hsynth s hs)
    rw [heq]
    exact ⟨c, hc, Synthesis.inScope_mapper (Catalog.portable hp hsmall hcat)⟩
  rw [← hinjected, List.forall_mem_map]
  constructor
  · intro h s hs d hd
    obtain ⟨c, hc, hiff⟩ := hspec s hs
    cases Option.some.inj (hd.symm.trans hc)
    exact hiff.mp (h s hs)
  · intro h s hs
    obtain ⟨c, hc, hiff⟩ := hspec s hs
    exact hiff.mpr (h s hs c hc)

/-- The program of a class file, after a run, is read back exactly if some text stands for each type
of the file and each class that got an accessor type has a name that is read as a nominal type. -/
theorem runs_survive_json (f : ClassFile)
    (hsize : (Batch.run true f.toProgram).program.size ≤ idLimit) :
    Program.ofJson? (Batch.run true f.toProgram).program.toJson =
        some (Batch.run true f.toProgram).program ↔
      f.TypesIn TypeDesc.Parsed ∧
        ∀ id ∈ (Batch.run true f.toProgram).report.injected, ∀ c, f.toProgram.class? id = some c →
          TypeDesc.parse? c.name = some (.ofName c.name) := by
  have hgrown : f.toProgram.size ≤ idLimit := by
    obtain ⟨specs, -, -, -, hprogram⟩ := Batch.program_run f.toProgram
    rw [hprogram, Program.size_withGrafts] at hsize
    omega
  have hfile : f.toProgram.InScope .portable ↔ f.TypesIn TypeDesc.Parsed :=
    ClassFile.inScope_toProgram TypeDesc.parsed_void fun id hid => Nat.lt_of_lt_of_le hid hgrown
  have hname : ∀ name, TypeDesc.parse? name = some (.ofName name) ↔ (TypeDesc.ofName name).Parsed :=
    fun name => TypeDesc.parse?_text_iff (t := .ofName name)
  simp only [Program.ofJson?_toJson_iff, Batch.inScope_run hsize, hfile, hname]

/-- One marked class with one field. -/
def singleFile (name : String) : ClassFile where
  classes := [{
    name, annotations := ["Entity"]
    fields := [{ name := "count", type := .primitive .int32 }] }]

theorem dotted_name_survives :
    (Batch.run true (singleFile "Order.Line").toProgram).report.injected = [0] ∧
      Program.ofJson? (Batch.run true (singleFile "Order.Line").toProgram).program.toJson =
        some (Batch.run true (singleFile "Order.Line").toProgram).program := by
  have hinjected : (Batch.run true (singleFile "Order.Line").toProgram).report.injected = [0] := by
    decide
  have hsize : (Batch.run true (singleFile "Order.Line").toProgram).program.size = 9 := by decide
  have htypes : (singleFile "Order.Line").TypesIn TypeDesc.Parsed := by
    intro c hc
    cases List.mem_singleton.mp hc
    refine ⟨by simp, fun g hg => ?_, by simp⟩
    cases List.mem_singleton.mp hg
    exact ⟨"int32", by decide⟩
  refine ⟨hinjected,
    (runs_survive_json (singleFile "Order.Line") (by rw [hsize]; decide)).mpr ⟨htypes, ?_⟩⟩
  rw [hinjected]
  intro id hid c hc
  cases List.mem_singleton.mp hid
  cases hc
  decide +kernel

/-- A name with a dash is no name of a text, and the program cannot be read. The name of a primitive
is read as the primitive, and the instance has become a number. -/
theorem unreadable_names_lost :
    (Batch.run true (singleFile "line-item").toProgram).report.injected = [0] ∧
      Program.ofJson? (Batch.run true (singleFile "line-item").toProgram).program.toJson = none ∧
      ((Batch.run true (singleFile "int32").toProgram).program.method? 5).map MethodDecl.params =
        some [⟨"instance", .ofName "int32"⟩, ⟨"field", .string⟩, ⟨"value", .any⟩] ∧
      ((Program.ofJson? (Batch.run true (singleFile "int32").toProgram).program.toJson).bind
          (·.method? 5)).map MethodDecl.params =
        some [⟨"instance", .primitive .int32⟩, ⟨"field", .string⟩, ⟨"value", .any⟩] := by
  refine ⟨by decide, by decide +kernel, by decide, by decide +kernel⟩

end FieldAccess
