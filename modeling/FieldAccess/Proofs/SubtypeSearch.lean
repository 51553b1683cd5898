import FieldAccess.Proofs.Supertypes

/-! What subtyping depends on. The answer is reachability along the links that were declared, in any
order and any number of times. A search for it ends in whatever order it takes up the names: each
name is replaced by its supertypes at most once, so that the names still to be looked at and the
links of names not yet replaced become fewer together. -/
namespace FieldAccess

namespace Hierarchy

/-! ### Searches in any order -/

/-- A search under way: the names that were expanded and those to be looked at, repeated ones
included. -/
structure Worklist where
  seen : List String
  pending : List String

/-- A round that does not find the goal. A pending name is dropped if it was expanded before, or
else makes room for its supertypes. Which one is taken, and in which order the others stay, is left
open. -/
inductive Round (h : Hierarchy) (goal : String) : Worklist → Worklist → Prop where
  | skip {seen pending rest : List String} {name : String} :
      pending.Perm (name :: rest) → name ≠ goal →
    name ∈ seen → Round h goal ⟨seen, pending⟩ ⟨seen, rest⟩
  | expand {seen pending rest next : List String} {name : String} : pending.Perm (name :: rest) →
    name ≠ goal → name ∉ seen → next.Perm (h.parents name ++ rest) →
    Round h goal ⟨seen, pending⟩ ⟨name :: seen, next⟩

/-- What is left to do: pending names, and links that may still make some. -/
def Worklist.load (h : Hierarchy) (s : Worklist) : Nat :=
  s.pending.length + openLinks s.seen h.entries

theorem load_lt_of_round {h : Hierarchy} {goal : String} {s t : Worklist}
    (round : h.Round goal s t) : t.load h < s.load h := by
  cases round with
  | skip taken _ _ =>
    have hlen := taken.length_eq
    simp only [Worklist.load, List.length_cons] at hlen ⊢
    omega
  | expand taken _ hseen next =>
    have hlen := taken.length_eq
    have hnext := next.length_eq
    have hopen := openLinks_expand hseen h.entries
    simp only [Worklist.load, List.length_cons, List.length_append, parents] at hlen hnext ⊢
    omega

theorem wellFounded_round (h : Hierarchy) (goal : String) :
    WellFounded fun t s => h.Round goal s t :=
  Subrelation.wf load_lt_of_round (measure (Worklist.load h)).wf

theorem leadsOn_perm {h : Hierarchy} {goal : String} {seen pending pending' : List String}
    (perm : pending.Perm pending') : h.LeadsOn goal seen pending ↔
    h.LeadsOn goal seen pending' := by
  simp only [LeadsOn, perm.mem_iff]

/-- A round neither finds a new way to the goal nor loses one. -/
theorem leadsOn_round {h : Hierarchy} {goal : String} {s t : Worklist} (round : h.Round goal s t) :
    h.LeadsOn goal s.seen s.pending ↔ h.LeadsOn goal t.seen t.pending := by
  cases round with
  | skip taken hgoal hseen => exact (leadsOn_perm taken).trans (leadsOn_skip hgoal hseen)
  | expand taken hgoal hseen next =>
    exact ((leadsOn_perm taken).trans (leadsOn_expand hgoal hseen)).trans (leadsOn_perm next.symm)

theorem leadsOn_rounds {h : Hierarchy} {goal : String} {s t : Worklist}
    (rounds : Relation.ReflTransGen (h.Round goal) s t) :
    h.LeadsOn goal s.seen s.pending ↔ h.LeadsOn goal t.seen t.pending := by
  induction rounds with
  | refl => exact Iff.rfl
  | tail _ round ih => exact ih.trans (leadsOn_round round)

theorem leadsOn_start (h : Hierarchy) (a b : String) :
    h.LeadsOn b [] [a] ↔ h.isSubtype a b = true := by
  rw [isSubtype, search_iff]
  rw [openLinks_nil, List.length_singleton]
  omega

theorem exists_round {h : Hierarchy} {goal : String} {s : Worklist} {name : String}
    (hmem : name ∈ s.pending) (hgoal : name ≠ goal) : ∃ t, h.Round goal s t := by
  have taken := List.perm_cons_erase hmem
  by_cases hseen : name ∈ s.seen
  · exact ⟨_, .skip taken hgoal hseen⟩
  · exact ⟨_, .expand taken hgoal hseen (.refl _)⟩

/-- Every search from one name for another ends, and its answer does not depend on its order. -/
structure Settles (h : Hierarchy) (a b : String) : Prop where
  ends : WellFounded fun t s => h.Round b s t
  proceeds (s : Worklist) : s.pending ≠ [] → b ∉ s.pending → ∃ t, h.Round b s t
  found (s : Worklist) : Relation.ReflTransGen (h.Round b) ⟨[], [a]⟩ s → b ∈ s.pending →
    h.isSubtype a b = true
  exhausted (s : Worklist) : Relation.ReflTransGen (h.Round b) ⟨[], [a]⟩ s → s.pending = [] →
    h.isSubtype a b = false

theorem settles (h : Hierarchy) (a b : String) : h.Settles a b where
  ends := h.wellFounded_round b
  proceeds s hne hgoal := by
    obtain ⟨name, hmem⟩ := List.exists_mem_of_ne_nil _ hne
    refine exists_round hmem ?_
    rintro rfl
    exact hgoal hmem
  found s rounds hgoal := (h.leadsOn_start a b).mp ((leadsOn_rounds rounds).mpr ⟨b, hgoal, .refl⟩)
  exhausted s rounds hnil := by
    rw [Bool.eq_false_iff, ne_eq, ← leadsOn_start, leadsOn_rounds rounds, hnil]
    rintro ⟨a, ha, _⟩
    cases ha

/-! ### Links -/

/-- A link of some declaration. -/
def Declared (decls : List (String × List String)) (a b : String) : Prop :=
  ∃ d ∈ decls, d.1 = a ∧ b ∈ d.2

theorem parents_empty (a : String) : empty.parents a = [] := rfl

theorem mem_parents_builtin {a b : String} :
    b ∈ builtin.parents a ↔ a = TypeDesc.listName ∧ b = TypeDesc.sequenceName := by
  have hdecls : builtin = empty.declareAll [(TypeDesc.sequenceName, []),
      (TypeDesc.listName, [TypeDesc.sequenceName]), (TypeDesc.stringName, [])] := rfl
  rw [hdecls, mem_parents_declareAll]
  simp [parents_empty, eq_comm]

/-- Reachability along any other description of the links. -/
theorem isSubtype_iff_of_links {h : Hierarchy} {link : String → String → Prop}
    (hlink : ∀ a b, b ∈ h.parents a ↔ link a b) (a b : String) :
    h.isSubtype a b = true ↔ Relation.ReflTransGen link a b := by
  have hsame : (fun a b => b ∈ h.parents a) = link := by
    funext a b
    exact propext (hlink a b)
  rw [isSubtype_iff_reaches, Reaches, hsame]

end Hierarchy

/-- A link of a program: the one of the built-in types, or one from the name of a class, nested or
not, to the name of a nominal supertype. -/
def Program.DirectlyBelow (p : Program) (a b : String) : Prop :=
  (a = TypeDesc.listName ∧ b = TypeDesc.sequenceName) ∨
    ∃ c ∈ p.classes, c.2.name = a ∧ ∃ args, .named b args ∈ c.2.supertypes

namespace Hierarchy

theorem mem_filterMap_name? {types : List TypeDesc} {b : String} :
    b ∈ types.filterMap TypeDesc.name? ↔ ∃ args, .named b args ∈ types := by
  rw [List.mem_filterMap]
  constructor
  · rintro ⟨t, ht, hname⟩
    cases t with
    | named name args =>
      obtain rfl := Option.some.inj hname
      exact ⟨args, ht⟩
    | _ => cases hname
  · rintro ⟨args, ht⟩
    exact ⟨_, ht, rfl⟩

theorem mem_parents_ofProgram (p : Program) (a b : String) :
    b ∈ (ofProgram p).parents a ↔ p.DirectlyBelow a b := by
  have hdecls : ofProgram p =
      builtin.declareAll
        (p.classes.map fun c => (c.2.name, c.2.supertypes.filterMap TypeDesc.name?)) := by
    rw [declareAll, List.foldl_map]
    rfl
  rw [hdecls, mem_parents_declareAll, mem_parents_builtin]
  simp only [List.mem_map, exists_exists_and_eq_and, mem_filterMap_name?]
  rfl

/-- Subtyping is reachability by declared links, and nothing else about the declarations matters;
for a program the links are those of its classes and the built-in one. The search for it ends in any
order. -/
theorem subtyping_is_reachability :
    (∀ (decls : List (String × List String)) (a b : String),
      (empty.declareAll decls).isSubtype a b = true ↔ Relation.ReflTransGen (Declared decls) a b) ∧
    (∀ (decls : List (String × List String)) (a b : String),
      (builtin.declareAll decls).isSubtype a b = true ↔
        Relation.ReflTransGen
          (fun x y => (x = TypeDesc.listName ∧ y = TypeDesc.sequenceName) ∨ Declared decls x y)
          a b) ∧
    (∀ (p : Program) (a b : String), b ∈ (ofProgram p).parents a ↔ p.DirectlyBelow a b) ∧
    (∀ (p : Program) (a b : String),
      (ofProgram p).isSubtype a b = true ↔ Relation.ReflTransGen p.DirectlyBelow a b) ∧
    (∀ (h : Hierarchy) (decls decls' : List (String × List String)),
      (∀ x y, Declared decls x y ↔ Declared decls' x y) →
      ∀ a b, (h.declareAll decls).isSubtype a b = (h.declareAll decls').isSubtype a b) ∧
    (∀ p q : Program, (∀ x y, p.DirectlyBelow x y ↔ q.DirectlyBelow x y) →
      ∀ a b, (ofProgram p).isSubtype a b = (ofProgram q).isSubtype a b) ∧
    ∀ (h : Hierarchy) (a b : String), h.Settles a b := by
  refine ⟨?_, ?_, mem_parents_ofProgram, ?_, ?_, ?_, settles⟩
  · intro decls
    apply isSubtype_iff_of_links
    intro x y
    rw [mem_parents_declareAll, parents_empty, ← Declared]
    simp only [List.not_mem_nil, false_or]
  · intro decls
    apply isSubtype_iff_of_links
    intro x y
    rw [mem_parents_declareAll, mem_parents_builtin, ← Declared]
  · intro p
    exact isSubtype_iff_of_links (mem_parents_ofProgram p)
  · intro h decls decls' same
    apply isSubtype_congr
    intro x y
    rw [mem_parents_declareAll, mem_parents_declareAll, ← Declared, ← Declared, same]
  · intro p q same
    apply isSubtype_congr
    intro x y
    rw [mem_parents_ofProgram, mem_parents_ofProgram, same]

/-- A cycle with a way out, declared at once and in pieces with a repetition. -/
theorem cycle_declared_in_pieces :
    let whole : List (String × List String) := [("A", ["B", "C"]), ("B", ["A"])]
    let pieces : List (String × List String) :=
      [("B", ["A"]), ("A", ["C"]), ("B", ["A"]), ("A", ["B"])]
    (∀ x y, Declared whole x y ↔ Declared pieces x y) ∧
      (builtin.declareAll whole).isSubtype "B" "C" = true ∧
      (builtin.declareAll whole).isSubtype "C" "B" = false ∧
      ∀ a b, (builtin.declareAll whole).isSubtype a b =
        (builtin.declareAll pieces).isSubtype a b := by
  intro whole pieces
  have same : ∀ x y, Declared whole x y ↔ Declared pieces x y := by
    intro x y
    simp only [whole, pieces, Declared, List.mem_cons, List.not_mem_nil, or_false, exists_eq_or_imp,
      exists_eq_left]
    constructor
    · rintro (⟨hx, hb | hc⟩ | ⟨hx, ha⟩)
      · exact Or.inr (Or.inr (Or.inr ⟨hx, hb⟩))
      · exact Or.inr (Or.inl ⟨hx, hc⟩)
      · exact Or.inl ⟨hx, ha⟩
    · rintro (⟨hx, ha⟩ | ⟨hx, hc⟩ | ⟨hx, ha⟩ | ⟨hx, hb⟩)
      · exact Or.inr ⟨hx, ha⟩
      · exact Or.inl ⟨hx, Or.inr hc⟩
      · exact Or.inr ⟨hx, ha⟩
      · exact Or.inl ⟨hx, Or.inl hb⟩
  obtain ⟨_, reachable, _, _, congruent, _⟩ := subtyping_is_reachability
  have cycle : Declared whole "B" "A" := ⟨("B", ["A"]), by decide, rfl, by decide⟩
  have out : Declared whole "A" "C" := ⟨("A", ["B", "C"]), by decide, rfl, by decide⟩
  refine ⟨same, (reachable whole "B" "C").mpr ?_, by decide +kernel,
    congruent builtin whole pieces same⟩
  exact .head (Or.inr cycle) (.single (Or.inr out))

end Hierarchy

end FieldAccess
