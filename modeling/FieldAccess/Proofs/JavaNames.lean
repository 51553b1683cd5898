import FieldAccess.ClassFile.Basic
import FieldAccess.Proofs.Catalogs
import FieldAccess.Proofs.SourceLayouts
import Mathlib.Data.List.Nodup
import Mathlib.Data.List.Pairwise

/-! Names that the escape of reserved words brings together. The underscore keeps a reserved word
from being one, but a field may already have that name. Two fields of a class share a variable
exactly if one is a reserved word and the other the same word with an underscore, and then their
accessors read and write one variable. -/
namespace FieldAccess

namespace Java

/-- The name that a reserved word is escaped to. -/
def Shadows (word name : String) : Prop := word ∈ reserved ∧ name = word ++ "_"

/-- Two names that are written alike. -/
def Clash (a b : String) : Prop := Shadows a b ∨ Shadows b a

theorem escaped_not_reserved : ∀ word ∈ reserved, word ++ "_" ∉ reserved := by
  decide +kernel

theorem identifier_of_mem {name : String} (h : name ∈ reserved) :
    identifier name = name ++ "_" := by
  rw [identifier, if_pos (List.contains_iff_mem.mpr h)]

theorem identifier_of_not_mem {name : String} (h : name ∉ reserved) : identifier name = name := by
  rw [identifier, if_neg fun hmem => h (List.contains_iff_mem.mp hmem)]

theorem Shadows.identifier_eq {a b : String} (h : Shadows a b) : identifier a = identifier b := by
  obtain ⟨ha, rfl⟩ := h
  rw [identifier_of_mem ha, identifier_of_not_mem (escaped_not_reserved a ha)]

theorem identifier_eq_iff {a b : String} : identifier a = identifier b ↔ a = b ∨ Clash a b := by
  constructor
  · intro h
    by_cases ha : a ∈ reserved <;> by_cases hb : b ∈ reserved
    · rw [identifier_of_mem ha, identifier_of_mem hb] at h
      exact Or.inl (by simpa using h)
    · rw [identifier_of_mem ha, identifier_of_not_mem hb] at h
      exact Or.inr (Or.inl ⟨ha, h.symm⟩)
    · rw [identifier_of_not_mem ha, identifier_of_mem hb] at h
      exact Or.inr (Or.inr ⟨hb, h⟩)
    · rw [identifier_of_not_mem ha, identifier_of_not_mem hb] at h
      exact Or.inl h
  · rintro (rfl | h | h)
    · rfl
    · exact h.identifier_eq
    · exact h.identifier_eq.symm

/-! ### Accessors -/

theorem bodyLines_getterOf (p : Program) (name : String) (type : TypeDesc) :
    bodyLines p (.getterOf name type) =
      .ok [.code 0 ("return " ++ ("this" ++ "." ++ identifier name) ++ ";")] := rfl

theorem bodyLines_setterOf (p : Program) (name : String) (type : TypeDesc) :
    bodyLines p (.setterOf name type) =
      .ok [.code 0 ("this" ++ "." ++ identifier name ++ " = " ++ identifier name ++ ";")] := rfl

theorem getter_text_eq_iff {p : Program} {a b : String} {s t : TypeDesc} :
    bodyLines p (.getterOf a s) = bodyLines p (.getterOf b t) ↔ identifier a = identifier b := by
  rw [bodyLines_getterOf, bodyLines_getterOf]
  simp

theorem setter_text_eq_iff {p : Program} {a b : String} {s t : TypeDesc} :
    bodyLines p (.setterOf a s) = bodyLines p (.setterOf b t) ↔ identifier a = identifier b := by
  rw [bodyLines_setterOf, bodyLines_setterOf]
  refine ⟨fun h => ?_, fun h => by rw [h]⟩
  simp only [Except.ok.injEq, List.cons.injEq, Line.code.injEq, String.append_left_inj, true_and,
    and_true] at h
  have hchars := congrArg String.toList h
  simp only [String.toList_append] at hchars
  -- the name is written twice, so equal texts have names of equal length
  have hlength : (identifier a).toList.length = (identifier b).toList.length := by
    have := congrArg List.length hchars
    simp only [List.length_append] at this
    omega
  exact String.toList_inj.mp (List.append_inj_right' hchars hlength)

end Java

open Java

theorem nodup_names_of_catalog {p : Program} {types : Hierarchy} {host : NodeId}
    {fields : List FieldDesc} (hcatalog : catalog p types host = .ok fields) :
    ((p.fieldsOf host).map fun f => f.2.name).Nodup := by
  obtain ⟨_, hall, wellNamed⟩ := catalog_ok hcatalog
  have hdistinct := wellNamed.distinct
  rw [Catalog.map_capitalized hall] at hdistinct
  refine List.Nodup.of_map Naming.capitalize ?_
  rw [List.map_map]
  exact hdistinct

/-- Fields of a class with a catalog share a variable, and their accessors a text, exactly if they
are one field or the name of one is a reserved word and that of the other the same word with an
underscore. -/
theorem fields_share_variable_iff_clash {p : Program} {types : Hierarchy} {host : NodeId}
    {fields : List FieldDesc} (hcatalog : catalog p types host = .ok fields) :
    (∀ (i j : Nat) (f g : NodeId × FieldDecl), (p.fieldsOf host)[i]? = some f →
      (p.fieldsOf host)[j]? = some g →
      (identifier f.2.name = identifier g.2.name ↔ i = j ∨ Clash f.2.name g.2.name) ∧
      (bodyLines p (.getterOf f.2.name f.2.type) = bodyLines p (.getterOf g.2.name g.2.type) ↔
        i = j ∨ Clash f.2.name g.2.name) ∧
      (bodyLines p (.setterOf f.2.name f.2.type) = bodyLines p (.setterOf g.2.name g.2.type) ↔
        i = j ∨ Clash f.2.name g.2.name)) ∧
    (((p.fieldsOf host).map fun f => identifier f.2.name).Nodup ↔
      (p.fieldsOf host).Pairwise fun f g => ¬ Clash f.2.name g.2.name) := by
  have hnodup := nodup_names_of_catalog hcatalog
  constructor
  · intro i j f g hf hg
    have hindex : f.2.name = g.2.name ↔ i = j := by
      have hi : ((p.fieldsOf host).map fun f => f.2.name)[i]? = some f.2.name := by simp [hf]
      have hj : ((p.fieldsOf host).map fun f => f.2.name)[j]? = some g.2.name := by simp [hg]
      have hlt := (List.getElem?_eq_some_iff.mp hi).1
      rw [← List.getElem?_inj hlt hnodup, hi, hj, Option.some.injEq]
    have hiff : identifier f.2.name = identifier g.2.name ↔ i = j ∨ Clash f.2.name g.2.name := by
      rw [identifier_eq_iff, hindex]
    exact ⟨hiff, getter_text_eq_iff.trans hiff, setter_text_eq_iff.trans hiff⟩
  · have hnames := List.pairwise_map.mp hnodup
    rw [List.Nodup, List.pairwise_map]
    constructor
    · exact fun h => h.imp fun hne hclash => hne (identifier_eq_iff.mpr (Or.inr hclash))
    · intro h
      refine (hnames.and h).imp fun ⟨hne, hclash⟩ heq => ?_
      rcases identifier_eq_iff.mp heq with heq | heq
      · exact hne heq
      · exact hclash heq

/-- A class with a reserved word for a field, and another field. -/
def optionClass (other : String) : ClassDef :=
  { name := "Option"
    fields :=
      [{ name := "default", type := .primitive .int32 }, { name := other, type := .string }] }

def optionProgram (other : String) : Program := (Program.empty.populateAll [optionClass other]).1

/-- A second underscore is enough to keep the fields apart. -/
theorem escaped_field_kept_apart :
    catalog (optionProgram "default__") .builtin 0 =
      .ok [⟨"default", "Default", .scalar (.primitive .int32), 1, 2, 3⟩,
        ⟨"default__", "Default__", .scalar .string, 4, 5, 6⟩] ∧
    (((optionProgram "default__").fieldsOf 0).map fun f => identifier f.2.name).Nodup := by
  have hcatalog : catalog (optionProgram "default__") .builtin 0 =
      .ok [⟨"default", "Default", .scalar (.primitive .int32), 1, 2, 3⟩,
        ⟨"default__", "Default__", .scalar .string, 4, 5, 6⟩] := rfl
  refine ⟨hcatalog, (fields_share_variable_iff_clash hcatalog).2.mpr ?_⟩
  refine List.pairwise_pair.mpr ?_
  rintro (⟨_, heq⟩ | ⟨hmem, _⟩)
  · exact absurd heq (by decide)
  · exact absurd hmem (by decide)

/-- Both fields are the variable `default_`, which the accessors of both read and write. -/
theorem escaped_field_written_twice :
    catalog (optionProgram "default_") .builtin 0 =
      .ok [⟨"default", "Default", .scalar (.primitive .int32), 1, 2, 3⟩,
        ⟨"default_", "Default_", .scalar .string, 4, 5, 6⟩] ∧
    (((optionProgram "default_").fieldsOf 0).map fun f => identifier f.2.name) =
      ["default_", "default_"] ∧
    bodyLines (optionProgram "default_") (.getterOf "default" (.primitive .int32)) =
      bodyLines (optionProgram "default_") (.getterOf "default_" .string) := by
  refine ⟨rfl, by decide +kernel, ?_⟩
  exact getter_text_eq_iff.mpr (by decide +kernel)

end FieldAccess
