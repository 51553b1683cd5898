import FieldAccess.Proofs.Batches
import FieldAccess.Proofs.ClassFiles
import FieldAccess.Proofs.Subtyping

/-! Which links a hierarchy has. A link is there if it was declared at some point, so that neither
the order of the declarations nor their repetition matters to subtyping. -/
namespace FieldAccess

namespace Hierarchy

theorem mem_merge {known new : List String} {s : String} :
    s ∈ merge known new ↔ s ∈ known ∨ s ∈ new := by
  induction new generalizing known with
  | nil => simp [merge]
  | cons name new ih =>
    have hstep : merge known (name :: new) =
        merge (if known.contains name then known else known ++ [name]) new := rfl
    rw [hstep, ih, List.mem_cons]
    by_cases hname : name ∈ known
    · rw [if_pos (List.contains_iff_mem.mpr hname)]
      constructor
      · rintro (hs | hs)
        · exact Or.inl hs
        · exact Or.inr (Or.inr hs)
      · rintro (hs | rfl | hs)
        · exact Or.inl hs
        · exact Or.inl hname
        · exact Or.inr hs
    · rw [if_neg (by simpa using hname), List.mem_append, List.mem_singleton, or_assoc]

theorem mem_parentsIn_declareIn {name a b : String} {supers : List String}
    (entries : List (String × List String)) :
    b ∈ parentsIn a (declareIn name supers entries) ↔
      b ∈ parentsIn a entries ∨ (name = a ∧ b ∈ supers) := by
  induction entries with
  | nil =>
    by_cases hname : name = a
    · simp [declareIn, parentsIn, hname, mem_merge]
    · simp [declareIn, parentsIn, hname]
  | cons e rest ih =>
    obtain ⟨n, known⟩ := e
    by_cases hn : n = name
    · subst hn
      by_cases hname : n = a
      · simp [declareIn, parentsIn, hname, mem_merge]
      · simp [declareIn, parentsIn, hname]
    · by_cases ha : n = a
      · subst ha
        simp [declareIn, parentsIn, hn, Ne.symm hn]
      · simp [declareIn, parentsIn, hn, ha, ih]

/-- All declarations in turn. -/
def declareAll (h : Hierarchy) (decls : List (String × List String)) : Hierarchy :=
  decls.foldl (fun types d => types.declare d.1 d.2) h

/-- The links are the old ones and those that were declared. -/
theorem mem_parents_declareAll {h : Hierarchy} {decls : List (String × List String)}
    {a b : String} :
    b ∈ (h.declareAll decls).parents a ↔ b ∈ h.parents a ∨ ∃ d ∈ decls, d.1 = a ∧ b ∈ d.2 := by
  induction decls using List.reverseRecOn with
  | nil => simp [declareAll]
  | append_singleton decls last ih =>
    have hlast : (h.declareAll (decls ++ [last])).parents a =
        parentsIn a (declareIn last.1 last.2 (h.declareAll decls).entries) := by
      simp only [declareAll, List.foldl_append, List.foldl_cons, List.foldl_nil]
      rfl
    rw [hlast, mem_parentsIn_declareIn, ← parents, ih, or_assoc]
    simp only [List.mem_append, List.mem_singleton]
    constructor
    · rintro (hb | ⟨d, hd, hlink⟩ | hlink)
      · exact Or.inl hb
      · exact Or.inr ⟨d, Or.inl hd, hlink⟩
      · exact Or.inr ⟨last, Or.inr rfl, hlink⟩
    · rintro (hb | ⟨d, hd | rfl, hlink⟩)
      · exact Or.inl hb
      · exact Or.inr (Or.inl ⟨d, hd, hlink⟩)
      · exact Or.inr (Or.inr hlink)

/-- Hierarchies with the same links have the same subtypes. -/
theorem isSubtype_congr {g h : Hierarchy} (links : ∀ a b, b ∈ g.parents a ↔ b ∈ h.parents a)
    (sub sup : String) : g.isSubtype sub sup = h.isSubtype sub sup := by
  have hreaches : g.Reaches sub sup ↔ h.Reaches sub sup := by
    have hsame : (fun a b => b ∈ g.parents a) = fun a b => b ∈ h.parents a := by
      funext a b
      exact propext (links a b)
    rw [Reaches, Reaches, hsame]
  rw [Bool.eq_iff_iff, isSubtype_iff_reaches, isSubtype_iff_reaches]
  exact hreaches

theorem isSequence_congr {g h : Hierarchy} (links : ∀ a b, b ∈ g.parents a ↔ b ∈ h.parents a)
    (t : TypeDesc) : g.isSequence t = h.isSequence t := by
  rw [Bool.eq_iff_iff, isSequence_iff, isSequence_iff]
  simp only [isSubtype_congr links]

end Hierarchy

/-- What subtyping reads of a class. -/
def ClassDef.typing (c : ClassDef) : String × List String :=
  (c.name, c.supertypes.filterMap TypeDesc.name?)

namespace Program

/-- What subtyping reads of a program. -/
def typings (p : Program) : List (String × List String) := p.nodes.filterMap fun e => typing? e.node

theorem ofProgram_eq_declareAll (p : Program) :
    Hierarchy.ofProgram p = Hierarchy.builtin.declareAll p.typings :=
  ofProgram_eq p

theorem typings_populate (p : Program) (c : ClassDef) :
    (p.populate c).1.typings = p.typings ++ [c.typing] := by
  have hclass : (p.addClass c.decl).1.typings = p.typings ++ [c.typing] := by
    simp [typings, addClass, typing?, Node.asClass?, ClassDef.typing, ClassDef.decl]
  rw [populate_eq, ← hclass]
  exact typings_attachAll _ _ fun n hn => asClass?_of_mem_nodes hn

theorem typings_populateAll (p : Program) (cs : List ClassDef) :
    (p.populateAll cs).1.typings = p.typings ++ cs.map ClassDef.typing := by
  induction cs generalizing p with
  | nil => exact (List.append_nil _).symm
  | cons c cs ih =>
    have hrest :
      (p.populateAll (c :: cs)).1.typings = ((p.populate c).1.populateAll cs).1.typings := rfl
    rw [hrest, ih, typings_populate, List.append_assoc]
    rfl

/-- The order in which classes are added does not matter to the links. -/
theorem parents_populateAll_perm (p : Program) {cs ds : List ClassDef} (perm : cs.Perm ds)
    (a b : String) :
    b ∈ (Hierarchy.ofProgram (p.populateAll cs).1).parents a ↔
      b ∈ (Hierarchy.ofProgram (p.populateAll ds).1).parents a := by
  have hsame : ∀ d, d ∈ (p.populateAll cs).1.typings ↔ d ∈ (p.populateAll ds).1.typings := by
    intro d
    rw [typings_populateAll, typings_populateAll]
    exact ((perm.map _).append_left _).mem_iff
  simp only [ofProgram_eq_declareAll, Hierarchy.mem_parents_declareAll, hsame]

theorem isSequence_populateAll_perm (p : Program) {cs ds : List ClassDef} (perm : cs.Perm ds)
    (t : TypeDesc) :
    (Hierarchy.ofProgram (p.populateAll cs).1).isSequence t =
      (Hierarchy.ofProgram (p.populateAll ds).1).isSequence t :=
  Hierarchy.isSequence_congr (p.parents_populateAll_perm perm) t

end Program

end FieldAccess
