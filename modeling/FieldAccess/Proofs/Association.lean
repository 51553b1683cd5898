import FieldAccess.Assoc
import Mathlib.Data.List.Induction

/-! Association lists: what a list of pairs holds after all of them have been written in turn. -/
namespace FieldAccess.Assoc

variable {κ α : Type} [DecidableEq κ]

theorem ofPairs_append_singleton (pairs : List (κ × α)) (p : κ × α) :
    ofPairs (pairs ++ [p]) = put p.1 p.2 (ofPairs pairs) := by
  simp [ofPairs]

theorem put_of_not_mem {key : κ} {entries : List (κ × α)} (h : key ∉ keys entries) (value : α) :
    put key value entries = entries ++ [(key, value)] := by
  induction entries with
  | nil => rfl
  | cons p rest ih =>
    simp only [keys, List.map_cons, List.mem_cons, not_or] at h
    have hp : ¬ p.1 = key := fun e => h.1 e.symm
    simp [put, hp, ih h.2]

/-- Distinct keys are all kept, in order. -/
theorem ofPairs_of_nodup {pairs : List (κ × α)} (h : (keys pairs).Nodup) :
    ofPairs pairs = pairs := by
  induction pairs using List.reverseRecOn with
  | nil => rfl
  | append_singleton pairs p ih =>
    rw [keys, List.map_append, List.map_singleton, List.nodup_append] at h
    have hnew : p.1 ∉ keys pairs := fun hm => h.2.2 p.1 hm p.1 (List.mem_singleton.mpr rfl) rfl
    rw [ofPairs_append_singleton, ih h.1, put_of_not_mem hnew]

/-- Each key once, where it came first. -/
theorem keys_ofPairs (pairs : List (κ × α)) :
    keys (ofPairs pairs) = (pairs.map Prod.fst).eraseDups := by
  induction pairs using List.reverseRecOn with
  | nil => rfl
  | append_singleton pairs p ih =>
    have hmem : p.1 ∈ keys (ofPairs pairs) ↔ p.1 ∈ pairs.map Prod.fst := by
      rw [ih, List.mem_eraseDups]
    rw [ofPairs_append_singleton, List.map_append, List.map_singleton, List.eraseDups_append]
    by_cases h : p.1 ∈ pairs.map Prod.fst
    · rw [keys_put_of_mem (hmem.mpr h), ih]
      simp [List.removeAll, h]
    · rw [keys_put_of_not_mem (fun hk => h (hmem.mp hk)), ih]
      simp [List.removeAll, h, List.eraseDups_cons]

theorem get?_eq_none_iff {key : κ} {entries : List (κ × α)} :
    get? key entries = none ↔ key ∉ keys entries := by
  induction entries with
  | nil => simp [get?, keys]
  | cons p rest ih =>
    by_cases h : p.1 = key
    · simp [get?, keys, h]
    · simp only [get?, h, if_false, ih, keys, List.map_cons, List.mem_cons, not_or]
      exact ⟨fun hr => ⟨fun e => h e.symm, hr⟩, And.right⟩

theorem get?_append (key : κ) (entries more : List (κ × α)) :
    get? key (entries ++ more) = (get? key entries).or (get? key more) := by
  induction entries with
  | nil => rfl
  | cons p rest ih => by_cases h : p.1 = key <;> simp [get?, h, ih]

theorem mem_of_get? {key : κ} {value : α} {entries : List (κ × α)}
    (h : get? key entries = some value) : (key, value) ∈ entries := by
  induction entries with
  | nil => simp [get?] at h
  | cons p rest ih =>
    by_cases hp : p.1 = key
    · simp only [get?, hp, if_true, Option.some.injEq] at h
      subst hp h
      exact List.mem_cons_self
    · simp only [get?, hp, if_false] at h
      exact List.mem_cons_of_mem _ (ih h)

theorem mem_put {key : κ} {value : α} {entries : List (κ × α)} {p : κ × α}
    (h : p ∈ put key value entries) : p = (key, value) ∨ p ∈ entries := by
  induction entries with
  | nil => exact Or.inl (List.mem_singleton.mp h)
  | cons q rest ih =>
    by_cases hq : q.1 = key
    · simp only [put, hq, if_true] at h
      rcases List.mem_cons.mp h with rfl | h
      · exact Or.inl rfl
      · exact Or.inr (List.mem_cons_of_mem _ h)
    · simp only [put, hq, if_false] at h
      rcases List.mem_cons.mp h with rfl | h
      · exact Or.inr List.mem_cons_self
      · rcases ih h with rfl | h
        · exact Or.inl rfl
        · exact Or.inr (List.mem_cons_of_mem _ h)

theorem mem_ofPairs {pairs : List (κ × α)} {p : κ × α} (h : p ∈ ofPairs pairs) : p ∈ pairs := by
  induction pairs using List.reverseRecOn with
  | nil => cases h
  | append_singleton pairs q ih =>
    rw [ofPairs_append_singleton] at h
    rcases mem_put h with rfl | h
    · exact List.mem_append_right _ (List.mem_singleton.mpr rfl)
    · exact List.mem_append_left _ (ih h)

theorem put_mapValues {β : Type} (g : α → β) (key : κ) (value : α) (entries : List (κ × α)) :
    put key (g value) (entries.map fun p => (p.1, g p.2)) =
      (put key value entries).map fun p => (p.1, g p.2) := by
  induction entries with
  | nil => rfl
  | cons p rest ih => by_cases hp : p.1 = key <;> simp [put, hp, ih]

/-- Keys keep their places when the values are changed one by one. -/
theorem ofPairs_mapValues {β : Type} (g : α → β) (pairs : List (κ × α)) :
    ofPairs (pairs.map fun p => (p.1, g p.2)) = (ofPairs pairs).map fun p => (p.1, g p.2) := by
  induction pairs using List.reverseRecOn with
  | nil => rfl
  | append_singleton pairs p ih =>
    rw [List.map_append, List.map_singleton, ofPairs_append_singleton, ofPairs_append_singleton, ih]
    exact put_mapValues g p.1 p.2 _

theorem get?_of_mem {key : κ} {value : α} {entries : List (κ × α)} (nodup : (keys entries).Nodup)
    (h : (key, value) ∈ entries) : get? key entries = some value := by
  induction entries with
  | nil => cases h
  | cons p rest ih =>
    obtain ⟨hp, hrest⟩ := List.nodup_cons.mp nodup
    rcases List.mem_cons.mp h with rfl | h
    · simp [get?]
    · have hne : ¬ p.1 = key := by
        intro heq
        exact hp (heq ▸ List.mem_map.mpr ⟨_, h, rfl⟩)
      simpa [get?, hne] using ih hrest h

/-- The last value that is written to a key stays. -/
theorem get?_ofPairs_of_last {key : κ} (value : α) (before : List (κ × α)) {after : List (κ × α)}
    (h : key ∉ keys after) : get? key (ofPairs (before ++ (key, value) :: after)) = some value := by
  induction after using List.reverseRecOn with
  | nil =>
    rw [ofPairs_append_singleton]
    exact get?_put_same ..
  | append_singleton after p ih =>
    rw [keys, List.map_append, List.mem_append, not_or] at h
    have hne : key ≠ p.1 := fun heq => h.2 (by simp [heq])
    rw [← List.cons_append, ← List.append_assoc, ofPairs_append_singleton,
      get?_put_other hne, ih h.1]

end FieldAccess.Assoc
