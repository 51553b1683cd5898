/-! Association lists in insertion order. Writing to a known key replaces its value and keeps its
place; a new key goes to the end. -/
namespace FieldAccess.Assoc

variable {κ α : Type} [DecidableEq κ]

def get? (key : κ) : List (κ × α) → Option α
  | [] => none
  | (k, v) :: rest => if k = key then some v else get? key rest

def put (key : κ) (value : α) : List (κ × α) → List (κ × α)
  | [] => [(key, value)]
  | (k, v) :: rest => if k = key then (k, value) :: rest else (k, v) :: put key value rest

/-- All pairs written in turn to an empty list. -/
def ofPairs (pairs : List (κ × α)) : List (κ × α) :=
  pairs.foldl (fun acc p => put p.1 p.2 acc) []

def keys (entries : List (κ × α)) : List κ := entries.map Prod.fst

@[simp] theorem get?_put_same (key : κ) (value : α) (entries : List (κ × α)) :
    get? key (put key value entries) = some value := by
  induction entries with
  | nil => simp [put, get?]
  | cons p rest ih =>
    by_cases h : p.1 = key
    · simp [put, get?, h]
    · simp [put, get?, h, ih]

theorem get?_put_other {key other : κ} (h : other ≠ key) (value : α) (entries : List (κ × α)) :
    get? other (put key value entries) = get? other entries := by
  induction entries with
  | nil => simp [put, get?, h.symm]
  | cons p rest ih =>
    by_cases hp : p.1 = key
    · have : ¬ p.1 = other := fun e => h (e.symm.trans hp)
      simp [put, get?, hp, h.symm]
    · by_cases ho : p.1 = other <;> simp [put, get?, hp, ho, ih, h]

theorem keys_put_of_mem {key : κ} {entries : List (κ × α)} (h : key ∈ keys entries)
    (value : α) : keys (put key value entries) = keys entries := by
  induction entries with
  | nil => simp [keys] at h
  | cons p rest ih =>
    by_cases hp : p.1 = key
    · simp [put, keys, hp]
    · have hr : key ∈ keys rest := by
        simp only [keys, List.map_cons, List.mem_cons] at h
        exact h.resolve_left fun e => hp e.symm
      have := ih hr
      simp only [keys] at this
      simp [put, keys, hp, this]

theorem keys_put_of_not_mem {key : κ} {entries : List (κ × α)} (h : key ∉ keys entries)
    (value : α) : keys (put key value entries) = keys entries ++ [key] := by
  induction entries with
  | nil => simp [put, keys]
  | cons p rest ih =>
    simp only [keys, List.map_cons, List.mem_cons, not_or] at h
    have hp : ¬ p.1 = key := fun e => h.1 e.symm
    have := ih h.2
    simp only [keys] at this
    simp [put, keys, hp, this]

end FieldAccess.Assoc
