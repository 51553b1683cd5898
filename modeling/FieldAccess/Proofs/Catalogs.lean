import FieldAccess.Proofs.Association
import FieldAccess.Proofs.Growth
import Mathlib.Data.List.Forall2

/-! What a catalog without faults says: one description for each field, in order, under names whose
accessors cannot be confused. It depends on the fields and methods of the class only. -/
namespace FieldAccess

namespace Naming

theorem capitalize_ne_empty {name : String} (h : name ≠ "") : capitalize name ≠ "" := by
  intro hc
  have hl := congrArg String.toList hc
  simp only [capitalize, String.toList_ofList] at hl
  cases hn : name.toList with
  | nil => exact h (by simpa using hn)
  | cons c cs => rw [hn] at hl; simp [capitalizeChars] at hl

theorem getter_inj {a b : String} : getter a = getter b ↔ capitalize a = capitalize b := by
  simp [getter]

theorem setter_inj {a b : String} : setter a = setter b ↔ capitalize a = capitalize b := by
  simp [setter]

theorem set_append_ne_get_append (a b : String) : "set" ++ a ≠ "get" ++ b := by
  intro h
  have := congrArg String.toList h
  simp at this

theorem setter_ne_getter (a b : String) : setter a ≠ getter b := set_append_ne_get_append _ _

end Naming

theorem Program.expectClass_eq_ok_iff {p : Program} {id : NodeId} {c : ClassDecl} :
    p.expectClass id = .ok c ↔ p.class? id = some c := by
  rw [class?_eq_some_iff, expectClass]
  cases p.node? id with
  | none => simp
  | some n => cases n <;> simp

namespace Catalog

/-- A description says what the class declares for its field. -/
structure Describes (p : Program) (types : Hierarchy) (owner : NodeId) (entry : NodeId × FieldDecl)
    (f : FieldDesc) : Prop where
  name : f.name = entry.2.name
  capitalized : f.capitalized = Naming.capitalize entry.2.name
  type : f.type = .classify types entry.2.type
  field : f.field = entry.1
  getter : getter? p owner entry.2 = some f.getter
  setter : setter? p owner entry.2 = some f.setter

/-- Accessor suffix of a field. -/
def suffix (field : NodeId × FieldDecl) : String := Naming.capitalize field.2.name

/-- A field without a fault has a name that was free, and a description. -/
theorem examine_ok {p : Program} {types : Hierarchy} {owner : NodeId} {className : String}
    {taken : Taken} {field : NodeId × FieldDecl}
    (h : errorsOf (examine p types owner className taken field.1 field.2).2 = []) :
    field.2.name ≠ "" ∧ Assoc.get? (suffix field) taken.suffixes = none ∧
      (examine p types owner className taken field.1 field.2).1.suffixes =
        taken.suffixes ++ [(suffix field, field.2.name)] ∧
      ∃ f, (examine p types owner className taken field.1 field.2).2 = .ok f ∧
        Describes p types owner field f := by
  unfold examine at h ⊢
  by_cases hempty : field.2.name.isEmpty
  · simp [hempty, errorsOf] at h
  · by_cases hname : taken.names.contains field.2.name
    · simp only [hempty, hname, if_true, errorsOf] at h
      cases h
    · simp only [hempty, hname] at h ⊢
      refine ⟨by simpa using hempty, ?_⟩
      cases hs : Assoc.get? (Naming.capitalize field.2.name) taken.suffixes with
      | some first => simp [hs, errorsOf] at h
      | none =>
        refine ⟨hs, ?_⟩
        simp only [hs] at h ⊢
        cases hg : getter? p owner field.2 with
        | none => simp [hg, errorsOf, missing] at h
        | some g =>
          cases ht : setter? p owner field.2 with
          | none => simp [hg, ht, errorsOf, missing] at h
          | some s => exact ⟨rfl, _, rfl, ⟨rfl, rfl, rfl, rfl, hg, ht⟩⟩

/-- Without a fault every field is described, in order, and no two share a suffix. -/
theorem examineAll_ok {p : Program} {types : Hierarchy} {owner : NodeId} {className : String}
    {taken : Taken} {fields : List (NodeId × FieldDecl)}
    (h : (examineAll p types owner className taken fields).flatMap errorsOf = []) :
    List.Forall₂ (Describes p types owner) fields
        ((examineAll p types owner className taken fields).filterMap descOf?) ∧
      (∀ field ∈ fields, field.2.name ≠ "") ∧ (fields.map suffix).Nodup ∧
      ∀ field ∈ fields, Assoc.get? (suffix field) taken.suffixes = none := by
  induction fields generalizing taken with
  | nil => exact ⟨.nil, nofun, List.nodup_nil, nofun⟩
  | cons field rest ih =>
    simp only [examineAll, List.flatMap_cons, List.append_eq_nil_iff] at h
    obtain ⟨hname, hfree, hsuffixes, f, hf, hd⟩ := examine_ok h.1
    obtain ⟨hrest, hnames, hnodup, htaken⟩ := ih h.2
    -- a later field finds the suffixes of all earlier ones taken
    have hlater : ∀ g ∈ rest, suffix g ≠ suffix field ∧
        Assoc.get? (suffix g) taken.suffixes = none := by
      intro g hg
      have hnone := htaken g hg
      rw [hsuffixes, Assoc.get?_eq_none_iff] at hnone
      simp only [Assoc.keys, List.map_append, List.map_singleton, List.mem_append,
        List.mem_singleton, not_or] at hnone
      exact ⟨hnone.2, Assoc.get?_eq_none_iff.mpr hnone.1⟩
    refine ⟨?_, ?_, ?_, ?_⟩
    · simp only [examineAll, List.filterMap_cons, hf, descOf?]
      exact .cons hd hrest
    · exact List.forall_mem_cons.mpr ⟨hname, hnames⟩
    · rw [List.map_cons, List.nodup_cons]
      refine ⟨fun hmem => ?_, hnodup⟩
      obtain ⟨g, hg, heq⟩ := List.mem_map.mp hmem
      exact (hlater g hg).1 heq
    · exact List.forall_mem_cons.mpr ⟨hfree, fun g hg => (hlater g hg).2⟩

theorem exists_entry {p : Program} {types : Hierarchy} {owner : NodeId}
    {entries : List (NodeId × FieldDecl)} {fields : List FieldDesc}
    (h : List.Forall₂ (Describes p types owner) entries fields) {f : FieldDesc} (hf : f ∈ fields) :
    ∃ entry ∈ entries, Describes p types owner entry f := by
  induction h with
  | nil => cases hf
  | cons hd _ ih =>
    rcases List.mem_cons.mp hf with rfl | hf
    · exact ⟨_, List.mem_cons_self, hd⟩
    · obtain ⟨entry, hmem, hd⟩ := ih hf
      exact ⟨entry, List.mem_cons_of_mem _ hmem, hd⟩

theorem map_capitalized {p : Program} {types : Hierarchy} {owner : NodeId}
    {entries : List (NodeId × FieldDecl)} {fields : List FieldDesc}
    (h : List.Forall₂ (Describes p types owner) entries fields) :
    fields.map FieldDesc.capitalized = entries.map suffix := by
  induction h with
  | nil => rfl
  | cons hd _ ih => rw [List.map_cons, List.map_cons, ih, hd.capitalized]; rfl

theorem map_name {p : Program} {types : Hierarchy} {owner : NodeId}
    {entries : List (NodeId × FieldDecl)} {fields : List FieldDesc}
    (h : List.Forall₂ (Describes p types owner) entries fields) :
    fields.map FieldDesc.name = entries.map fun e => e.2.name := by
  induction h with
  | nil => rfl
  | cons hd _ ih => rw [List.map_cons, List.map_cons, ih, hd.name]

end Catalog

/-- Names of fields from which accessor names can be told apart. -/
structure WellNamed (fields : List FieldDesc) : Prop where
  capitalized : ∀ f ∈ fields, f.capitalized = Naming.capitalize f.name
  nonempty : ∀ f ∈ fields, f.name ≠ ""
  distinct : (fields.map FieldDesc.capitalized).Nodup

theorem catalog_ok {p : Program} {types : Hierarchy} {owner : NodeId} {fields : List FieldDesc}
    (h : catalog p types owner = .ok fields) :
    (∃ c, p.class? owner = some c) ∧
      List.Forall₂ (Catalog.Describes p types owner) (p.fieldsOf owner) fields ∧
      WellNamed fields := by
  unfold catalog at h
  cases hc : p.expectClass owner with
  | error e => rw [hc] at h; cases h
  | ok c =>
    simp only [hc] at h
    cases he : (Catalog.examineAll p types owner c.name {} (p.fieldsOf owner)).flatMap
        Catalog.errorsOf with
    | cons e es => rw [he] at h; cases h
    | nil =>
      simp only [he, Except.ok.injEq] at h
      obtain ⟨hall, hnames, hnodup, _⟩ := Catalog.examineAll_ok he
      rw [h] at hall
      refine ⟨⟨c, Program.expectClass_eq_ok_iff.mp hc⟩, hall, ?_, ?_, ?_⟩
      · intro f hf
        obtain ⟨entry, _, hd⟩ := Catalog.exists_entry hall hf
        rw [hd.capitalized, hd.name]
      · intro f hf
        obtain ⟨entry, hmem, hd⟩ := Catalog.exists_entry hall hf
        rw [hd.name]
        exact hnames entry hmem
      · rw [Catalog.map_capitalized hall]
        exact hnodup

/-! ### Other ids -/

/-- A description of the same field under other ids. -/
def FieldDesc.rename (ρ : NodeId → NodeId) (f : FieldDesc) : FieldDesc :=
  { f with field := ρ f.field, getter := ρ f.getter, setter := ρ f.setter }

namespace Catalog

variable {p q : Program} {types types' : Hierarchy} {ρ : NodeId → NodeId} {id id' : NodeId}
  (hgetter : ∀ f, getter? q id' f = (getter? p id f).map ρ)
  (hsetter : ∀ f, setter? q id' f = (setter? p id f).map ρ)
  (htypes : ∀ t, types'.isSequence t = types.isSequence t)
include hgetter hsetter htypes

theorem examine_rename (className : String) (taken : Taken) (m : NodeId) (f : FieldDecl) :
    examine q types' id' className taken (ρ m) f =
      ((examine p types id className taken m f).1,
        (examine p types id className taken m f).2.map (FieldDesc.rename ρ)) := by
  have hclassify : FieldType.classify types' f.type = FieldType.classify types f.type := by
    rw [FieldType.classify, FieldType.classify, htypes]
  unfold examine
  by_cases hempty : f.name.isEmpty = true
  · simp only [if_pos hempty]
    rfl
  by_cases htaken : taken.names.contains f.name = true
  · simp only [if_neg hempty, if_pos htaken]
    rfl
  simp only [if_neg hempty, if_neg htaken, hgetter, hsetter, hclassify]
  cases Assoc.get? (Naming.capitalize f.name) taken.suffixes with
  | some first => rfl
  | none => cases getter? p id f <;> cases setter? p id f <;> rfl

theorem examineAll_rename (className : String) (taken : Taken)
    (fields : List (NodeId × FieldDecl)) :
    examineAll q types' id' className taken (fields.map fun x => (ρ x.1, x.2)) =
      (examineAll p types id className taken fields).map (Except.map (FieldDesc.rename ρ)) := by
  induction fields generalizing taken with
  | nil => rfl
  | cons x rest ih =>
    simp only [List.map_cons, examineAll, examine_rename hgetter hsetter htypes, ih]

/-- A catalog reads the name of its class, its fields, the accessors found for them and which types
are sequences; ids are handed on as they are found. -/
theorem catalog_rename {c d : ClassDecl} (hc : p.class? id = some c) (hd : q.class? id' = some d)
    (hname : d.name = c.name)
    (hfields : q.fieldsOf id' = (p.fieldsOf id).map fun x => (ρ x.1, x.2)) :
    catalog q types' id' = (catalog p types id).map (List.map (FieldDesc.rename ρ)) := by
  have herrors : ∀ r : Except (List CatalogError) FieldDesc,
      errorsOf (r.map (FieldDesc.rename ρ)) = errorsOf r := by
    intro r
    cases r <;> rfl
  have hdescs : ∀ r : Except (List CatalogError) FieldDesc,
      descOf? (r.map (FieldDesc.rename ρ)) = (descOf? r).map (FieldDesc.rename ρ) := by
    intro r
    cases r <;> rfl
  simp only [catalog, Program.expectClass_eq_ok_iff.mpr hc,
    Program.expectClass_eq_ok_iff.mpr hd, hname, hfields, examineAll_rename hgetter hsetter htypes,
    List.flatMap_map, List.filterMap_map, herrors]
  generalize examineAll p types id c.name {} (p.fieldsOf id) = results
  cases results.flatMap errorsOf with
  | cons e es => rfl
  | nil =>
    simp only [Function.comp_def, hdescs]
    rw [← List.map_filterMap]
    rfl

end Catalog

end FieldAccess
