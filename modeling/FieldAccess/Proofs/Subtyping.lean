import FieldAccess.Hierarchy
import Mathlib.Logic.Relation

/-! Subtyping is reachability along the declared links. The search keeps the names it has expanded
and never expands one twice, so that its fuel, one step for each link and one for the start, is
never used up. -/
namespace FieldAccess.Hierarchy

/-- A declared link from a name outside a list. -/
def LinkOff (h : Hierarchy) (seen : List String) (a b : String) : Prop := a ∉ seen ∧ b ∈ h.parents a

/-- Reachability by links. -/
def Reaches (h : Hierarchy) : String → String → Prop :=
  Relation.ReflTransGen fun a b => b ∈ h.parents a

/-- A path either leaves a name out or has a last place where it goes through it. -/
theorem linkOff_detour {h : Hierarchy} {seen : List String} {a goal : String} (name : String)
    (path : Relation.ReflTransGen (h.LinkOff seen) a goal) :
    Relation.ReflTransGen (h.LinkOff (name :: seen)) a goal ∨
      ∃ b ∈ h.parents name, Relation.ReflTransGen (h.LinkOff (name :: seen)) b goal := by
  induction path using Relation.ReflTransGen.head_induction_on with
  | refl => exact Or.inl .refl
  | @head a b link _ ih =>
    rcases ih with rest | later
    · by_cases ha : a = name
      · subst ha
        exact Or.inr ⟨b, link.2, rest⟩
      · refine Or.inl (.head ⟨?_, link.2⟩ rest)
        rw [List.mem_cons, not_or]
        exact ⟨ha, link.1⟩
    · exact Or.inr later

theorem linkOff_mono {h : Hierarchy} {seen : List String} {name a goal : String}
    (path : Relation.ReflTransGen (h.LinkOff (name :: seen)) a goal) :
    Relation.ReflTransGen (h.LinkOff seen) a goal := by
  have hle : h.LinkOff (name :: seen) ≤ h.LinkOff seen :=
    fun _ _ link => ⟨fun hmem => link.1 (List.mem_cons_of_mem _ hmem), link.2⟩
  exact Relation.ReflTransGen.mono hle _ _ path

/-- Links of the names that are not in a list. -/
def openLinks (seen : List String) : List (String × List String) → Nat
  | [] => 0
  | (n, supers) :: rest => (if n ∈ seen then 0 else supers.length) + openLinks seen rest

theorem openLinks_nil (h : Hierarchy) : openLinks [] h.entries = h.edgeCount := by
  unfold edgeCount
  induction h.entries with
  | nil => rfl
  | cons e rest ih => simp [openLinks, ih]

theorem openLinks_cons_le (name : String) (seen : List String)
    (entries : List (String × List String)) :
    openLinks (name :: seen) entries ≤ openLinks seen entries := by
  induction entries with
  | nil => exact Nat.le_refl _
  | cons e rest ih =>
    obtain ⟨n, supers⟩ := e
    by_cases hn : n ∈ seen
    · simp only [openLinks, if_pos hn, if_pos (List.mem_cons_of_mem name hn)]
      omega
    · simp only [openLinks, if_neg hn]
      split <;> omega

/-- Expanding a name closes its links. -/
theorem openLinks_expand {name : String} {seen : List String} (hname : name ∉ seen)
    (entries : List (String × List String)) :
    openLinks (name :: seen) entries + (parentsIn name entries).length ≤
      openLinks seen entries := by
  induction entries with
  | nil => exact Nat.le_refl _
  | cons e rest ih =>
    obtain ⟨n, supers⟩ := e
    by_cases hn : n = name
    · subst hn
      have hrest := openLinks_cons_le n seen rest
      simp only [openLinks, parentsIn, if_pos List.mem_cons_self, if_neg hname, if_true]
      omega
    · have hiff : n ∈ name :: seen ↔ n ∈ seen := by simp [hn]
      simp only [openLinks, parentsIn, if_neg hn, hiff]
      omega

/-- Some pending name leads to the goal without going through an expanded one. -/
def LeadsOn (h : Hierarchy) (goal : String) (seen pending : List String) : Prop :=
  ∃ a ∈ pending, Relation.ReflTransGen (h.LinkOff seen) a goal

/-- A path that starts at an expanded name cannot go anywhere. -/
theorem leadsOn_skip {h : Hierarchy} {goal name : String} {seen pending : List String}
    (hgoal : name ≠ goal) (hseen : name ∈ seen) :
    h.LeadsOn goal seen (name :: pending) ↔ h.LeadsOn goal seen pending := by
  constructor
  · rintro ⟨a, ha, path⟩
    rcases List.mem_cons.mp ha with rfl | ha
    · rcases path.cases_head with heq | ⟨_, link, _⟩
      · exact absurd heq hgoal
      · exact absurd hseen link.1
    · exact ⟨a, ha, path⟩
  · rintro ⟨a, ha, path⟩
    exact ⟨a, List.mem_cons_of_mem _ ha, path⟩

/-- Nothing is lost when a name is replaced by its supertypes and never gone through again. -/
theorem leadsOn_expand {h : Hierarchy} {goal name : String} {seen pending : List String}
    (hgoal : name ≠ goal) (hseen : name ∉ seen) :
    h.LeadsOn goal seen (name :: pending) ↔
      h.LeadsOn goal (name :: seen) (h.parents name ++ pending) := by
  constructor
  · rintro ⟨a, ha, path⟩
    rcases linkOff_detour name path with direct | ⟨b, hb, rest⟩
    · rcases List.mem_cons.mp ha with rfl | ha
      · -- the first link of the path leaves the name that is left out
        rcases direct.cases_head with heq | ⟨_, link, _⟩
        · exact absurd heq hgoal
        · exact absurd List.mem_cons_self link.1
      · exact ⟨a, List.mem_append_right _ ha, direct⟩
    · exact ⟨b, List.mem_append_left _ hb, rest⟩
  · rintro ⟨a, ha, path⟩
    rcases List.mem_append.mp ha with ha | ha
    · exact ⟨name, List.mem_cons_self, .head ⟨hseen, ha⟩ (linkOff_mono path)⟩
    · exact ⟨a, List.mem_cons_of_mem _ ha, linkOff_mono path⟩

/-- With fuel for the pending names and the links still open, the search finds exactly what can be
reached from a pending name without going through an expanded one. -/
theorem search_iff (h : Hierarchy) (goal : String) {fuel : Nat} {seen pending : List String}
    (hfuel : pending.length + openLinks seen h.entries ≤ fuel) :
    h.search goal fuel seen pending = true ↔ h.LeadsOn goal seen pending := by
  induction fuel generalizing seen pending with
  | zero =>
    obtain rfl : pending = [] := List.length_eq_zero_iff.mp (by omega)
    simp [search, LeadsOn]
  | succ fuel ih =>
    cases pending with
    | nil => simp [search, LeadsOn]
    | cons name pending =>
      rw [List.length_cons] at hfuel
      by_cases hgoal : name = goal
      · subst hgoal
        simp only [search, if_true, true_iff]
        exact ⟨name, List.mem_cons_self, .refl⟩
      by_cases hseen : name ∈ seen
      · have hcontains : seen.contains name = true := List.contains_iff_mem.mpr hseen
        simp only [search, if_neg hgoal, hcontains, if_true]
        rw [ih (by omega), leadsOn_skip hgoal hseen]
      · have hcontains : seen.contains name = false := by
          simpa using hseen
        have hopen := openLinks_expand hseen h.entries
        simp only [search, if_neg hgoal, hcontains, Bool.false_eq_true, if_false]
        rw [ih (by rw [List.length_append, parents]; omega), leadsOn_expand hgoal hseen]

theorem isSubtype_iff_reaches (h : Hierarchy) (sub sup : String) :
    h.isSubtype sub sup = true ↔ h.Reaches sub sup := by
  have hfuel : [sub].length + openLinks [] h.entries ≤ h.edgeCount + 1 := by
    rw [openLinks_nil, List.length_singleton]
    omega
  have hall : h.LinkOff [] = fun a b => b ∈ h.parents a := by
    funext a b
    simp [LinkOff]
  rw [isSubtype, search_iff h sup hfuel, LeadsOn, hall]
  simp [Reaches]

theorem isSubtype_trans {h : Hierarchy} {a b c : String} (hab : h.isSubtype a b = true)
    (hbc : h.isSubtype b c = true) : h.isSubtype a c = true := by
  rw [isSubtype_iff_reaches] at hab hbc ⊢
  exact hab.trans hbc

/-- A name that is below another one has a supertype. -/
theorem parents_ne_nil {h : Hierarchy} {sub sup : String} (hsub : h.isSubtype sub sup = true)
    (hne : sub ≠ sup) : h.parents sub ≠ [] := by
  intro hnil
  rcases ((isSubtype_iff_reaches h sub sup).mp hsub).cases_head with heq | ⟨b, hb, _⟩
  · exact hne heq
  · rw [hnil] at hb
    cases hb

/-- Sequence types are the nominal types below `sequence`. -/
theorem isSequence_iff {h : Hierarchy} {t : TypeDesc} :
    h.isSequence t = true ↔
      ∃ name args, t = .named name args ∧ h.isSubtype name TypeDesc.sequenceName = true := by
  constructor
  · intro ht
    cases t with
    | named name args => exact ⟨name, args, rfl, ht⟩
    | _ => cases ht
  · rintro ⟨name, args, rfl, hname⟩
    exact hname

end FieldAccess.Hierarchy
