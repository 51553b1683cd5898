import FieldAccess.Heap.Snapshot
import FieldAccess.Proofs.Successes
import Mathlib.Data.List.Perm.Subperm

/-! Cells of the heap, objects and sequences alike. A handle leads to a cell, a cell holds values in
an order, and its rendering is put together from theirs. One path of cells serves a whole rendering;
it is the same after each part as before, so every cell is rendered below those that lead to it. -/
namespace FieldAccess

/-- The cell that a value refers to. -/
def Value.handle? : Value → Option Handle
  | .object id => some (.object id)
  | .seq id => some (.seq id)
  | _ => none

inductive Cell where
  | object (cell : ObjectCell)
  | seq (items : List Value)

namespace Cell

/-- Values in the order of the slots or of the elements. -/
def contents : Cell → List Value
  | object cell => cell.slots.map Prod.snd
  | seq items => items

/-- The rendering of a cell whose contents are rendered so. -/
def json : Cell → List Json → Json
  | object cell, parts => Heap.objectJson cell.className ((cell.slots.map Prod.fst).zip parts)
  | seq _, parts => .arr parts

end Cell

namespace Heap

def cell? (h : Heap) : Handle → Option Cell
  | .object id => h.objects[id]?.map .object
  | .seq id => h.sequences[id]?.map .seq

/-- Every cell, once. -/
def cells (h : Heap) : List Handle :=
  (List.range h.objects.length).map .object ++ (List.range h.sequences.length).map .seq

theorem length_cells (h : Heap) : h.cells.length = h.size := by
  simp [cells, size]

theorem mem_cells {h : Heap} {c : Handle} : c ∈ h.cells ↔ ∃ cell, h.cell? c = some cell := by
  rw [← Option.isSome_iff_exists]
  cases c with
  | object id => simp [cells, cell?]
  | seq id => simp [cells, cell?]

/-- A path that holds each cell at most once cannot take up all the fuel before it has met them
all. -/
theorem room_of_path {h : Heap} {path : List Handle} {c : Handle} {fuel : Nat} (nodup : path.Nodup)
    (sub : path ⊆ h.cells) (hc : c ∈ h.cells) (hnew : c ∉ path)
    (room : h.size ≤ fuel + path.length) : 0 < fuel := by
  have hlen : (c :: path).length ≤ h.cells.length :=
    (List.subperm_of_subset (List.nodup_cons.mpr ⟨hnew, nodup⟩)
      (List.cons_subset.mpr ⟨hc, sub⟩)).length_le
  rw [length_cells, List.length_cons] at hlen
  omega

end Heap

/-! ### One path -/

namespace Rendering

variable {α β : Type} {path : List Handle}

/-- On this path the step comes to a result, and then the path is as it was. -/
def Settles (path : List Handle) (x : Rendering α) (r : Except EvalError α) : Prop :=
  x.run path = (fun a => (a, path)) <$> r

namespace Settles

theorem pure (a : α) : Settles path (pure a) (.ok a) := rfl

theorem run'_eq {x : Rendering α} {r : Except EvalError α} (hx : Settles path x r) :
    x.run' path = r := by
  rw [StateT.run'_eq, hx, Functor.map_map]
  exact id_map r

theorem bind {x : Rendering α} {r : Except EvalError α} {f : α → Rendering β}
    {g : α → Except EvalError β} (hx : Settles path x r) (hf : ∀ a, Settles path (f a) (g a)) :
    Settles path (x >>= f) (r >>= g) := by
  rw [Settles, StateT.run_bind, hx, bind_map_left, map_bind]
  exact congrArg _ (funext hf)

theorem mapM {f : α → Rendering β} {g : α → Except EvalError β} (hf : ∀ a, Settles path (f a) (g a))
    (l : List α) : Settles path (l.mapM f) (l.mapM g) := by
  induction l with
  | nil => exact .pure []
  | cons a l ih =>
    rw [List.mapM_cons, List.mapM_cons]
    exact (hf a).bind fun b => ih.bind fun bs => .pure (b :: bs)

/-- A cell is on the path while it is rendered, and off it afterwards. -/
theorem rendered {c : Handle} {x : Rendering Json} {r : Except EvalError Json}
    (hx : Settles (c :: path) x r) :
    Settles path (c.rendered x) (if c ∈ path then .ok c.backReference else r) := by
  by_cases hc : c ∈ path
  · have hback : (c.rendered x).run path = Pure.pure (c.backReference, path) := by
      simp [Handle.rendered, hc]
    rw [Settles, hback, if_pos hc]
    rfl
  · have hrun : (c.rendered x).run path = (fun r => (r.1, r.2.erase c)) <$> x.run (c :: path) := by
      simp [Handle.rendered, hc]
    rw [Settles, hrun, hx, if_neg hc, Functor.map_map]
    simp only [List.erase_cons_head]

end Settles

end Rendering

namespace Heap

open Rendering

/-- Snapshot below a path of cells. -/
def snapshotAt (h : Heap) (fuel : Nat) (path : List Handle) (v : Value) : Except EvalError Json :=
  (h.rendering fuel v).run' path

section

variable {h : Heap} {fuel : Nat}
  (below : ∀ less < fuel, ∀ path v, Settles path (h.rendering less v) (h.snapshotAt less path v))
include below

theorem settles_seq (path : List Handle) (id : SeqId) :
    Settles path (h.rendering fuel (.seq id))
      (if .seq id ∈ path then .ok (Handle.seq id).backReference
      else do
        let items ← h.sequence id
        match fuel with
        | 0 => .error (.danglingHandle (SeqId.text id))
        | fuel + 1 => return .arr (← items.mapM (h.snapshotAt fuel (.seq id :: path)))) := by
  rw [rendering]
  have hfound : Settles (.seq id :: path) (liftM (h.sequence id) : Rendering _) (h.sequence id) :=
    rfl
  refine .rendered (hfound.bind fun items => ?_)
  cases fuel with
  | zero => rfl
  | succ fuel =>
    exact (Settles.mapM (below fuel (Nat.lt_succ_self fuel) _) items).bind fun _ => .pure _

theorem settles_object (path : List Handle) (id : ObjectId) :
    Settles path (h.rendering fuel (.object id))
      (if .object id ∈ path then .ok (Handle.object id).backReference
      else do
        let cell ← h.object id
        match fuel with
        | 0 => .error (.danglingHandle (ObjectId.text id))
        | fuel + 1 =>
          let fields ← cell.slots.mapM fun s => do
            return (s.1, ← h.snapshotAt fuel (.object id :: path) s.2)
          return objectJson cell.className fields) := by
  rw [rendering]
  have hfound : Settles (.object id :: path) (liftM (h.object id) : Rendering _) (h.object id) :=
    rfl
  refine .rendered (hfound.bind fun cell => ?_)
  cases fuel with
  | zero => rfl
  | succ fuel =>
    refine (Settles.mapM (fun s => ?_) cell.slots).bind fun _ => .pure _
    exact (below fuel (Nat.lt_succ_self fuel) _ s.2).bind fun _ => .pure _

end

/-- The path is as it was whenever a value has been rendered, so its neighbours start from the
same. -/
theorem settles_rendering (h : Heap) (fuel : Nat) (path : List Handle) (v : Value) :
    Settles path (h.rendering fuel v) (h.snapshotAt fuel path v) := by
  induction fuel using Nat.strongRecOn generalizing path v with
  | ind fuel below =>
    cases v with
    | seq id =>
      have hseq := settles_seq below path id
      rwa [snapshotAt, hseq.run'_eq]
    | object id =>
      have hobject := settles_object below path id
      rwa [snapshotAt, hobject.run'_eq]
    | _ => cases fuel <;> rfl

theorem snapshotAt_seq (h : Heap) (fuel : Nat) (path : List Handle) (id : SeqId) :
    h.snapshotAt fuel path (.seq id) =
      if .seq id ∈ path then .ok (Handle.seq id).backReference
      else do
        let items ← h.sequence id
        match fuel with
        | 0 => .error (.danglingHandle (SeqId.text id))
        | fuel + 1 => return .arr (← items.mapM (h.snapshotAt fuel (.seq id :: path))) :=
  (settles_seq (fun less _ => settles_rendering h less) path id).run'_eq

theorem snapshotAt_object (h : Heap) (fuel : Nat) (path : List Handle) (id : ObjectId) :
    h.snapshotAt fuel path (.object id) =
      if .object id ∈ path then .ok (Handle.object id).backReference
      else do
        let cell ← h.object id
        match fuel with
        | 0 => .error (.danglingHandle (ObjectId.text id))
        | fuel + 1 =>
          let fields ← cell.slots.mapM fun s => do
            return (s.1, ← h.snapshotAt fuel (.object id :: path) s.2)
          return objectJson cell.className fields :=
  (settles_object (fun less _ => settles_rendering h less) path id).run'_eq

/-! ### Snapshots of cells -/

section

variable {h : Heap} {fuel : Nat} {path : List Handle} {v : Value} {c : Handle}

theorem snapshotAt_plain (hv : v.handle? = none) : h.snapshotAt fuel path v = .ok v.plainJson := by
  cases v with
  | object id => cases hv
  | seq id => cases hv
  | _ => cases fuel <;> rfl

theorem snapshotAt_back (hv : v.handle? = some c) (hc : c ∈ path) :
    h.snapshotAt fuel path v = .ok c.backReference := by
  cases v with
  | object id =>
    cases hv
    rw [snapshotAt_object, if_pos hc]
  | seq id =>
    cases hv
    rw [snapshotAt_seq, if_pos hc]
  | _ => cases hv

/-- A cell that is missing, or met without fuel, has no snapshot. -/
theorem snapshotAt_stuck (hv : v.handle? = some c) (hc : c ∉ path)
    (stuck : fuel = 0 ∨ h.cell? c = none) (json : Json) : h.snapshotAt fuel path v ≠ .ok json := by
  cases v with
  | object id =>
    cases hv
    rw [snapshotAt_object, if_neg hc]
    intro hok
    obtain ⟨cell, hcell, hok⟩ := exists_of_bind_eq_ok hok
    rcases stuck with rfl | hnone
    · cases hok
    · simp only [cell?, Option.map_eq_none_iff] at hnone
      simp [object, hnone] at hcell
  | seq id =>
    cases hv
    rw [snapshotAt_seq, if_neg hc]
    intro hok
    obtain ⟨items, hitems, hok⟩ := exists_of_bind_eq_ok hok
    rcases stuck with rfl | hnone
    · cases hok
    · simp only [cell?, Option.map_eq_none_iff] at hnone
      simp [sequence, hnone] at hitems
  | _ => cases hv

/-- Rendering slots is rendering their values, with their names kept. -/
theorem mapM_slots (render : Value → Except EvalError Json) (slots : List (String × Value)) :
    slots.mapM (fun s => do return (s.1, ← render s.2)) =
      ((slots.map Prod.fst).zip ·) <$> (slots.map Prod.snd).mapM render := by
  induction slots with
  | nil => rfl
  | cons s slots ih =>
    rw [List.mapM_cons, ih, List.map_cons, List.map_cons, List.mapM_cons]
    cases render s.2 with
    | error e => rfl
    | ok json => cases (slots.map Prod.snd).mapM render <;> rfl

/-- A cell off the path is rendered from its contents, one cell further down. -/
theorem snapshotAt_cell {cell : Cell} (hv : v.handle? = some c) (hc : c ∉ path)
    (hcell : h.cell? c = some cell) :
    h.snapshotAt (fuel + 1) path v = cell.json <$>
      cell.contents.mapM (h.snapshotAt fuel (c :: path)) := by
  cases v with
  | object id =>
    cases hv
    obtain ⟨o, ho, rfl⟩ := Option.map_eq_some_iff.mp hcell
    rw [snapshotAt_object, if_neg hc, object, ho]
    simp only [bind, Except.bind]
    have hslots := mapM_slots (h.snapshotAt fuel (.object id :: path)) o.slots
    simp only [bind, Except.bind] at hslots
    rw [hslots, Cell.contents]
    cases (o.slots.map Prod.snd).mapM (h.snapshotAt fuel (.object id :: path)) <;> rfl
  | seq id =>
    cases hv
    obtain ⟨items, hitems, rfl⟩ := Option.map_eq_some_iff.mp hcell
    rw [snapshotAt_seq, if_neg hc, sequence, hitems]
    simp only [bind, Except.bind, Cell.contents]
    cases items.mapM (h.snapshotAt fuel (.seq id :: path)) <;> rfl
  | _ => cases hv

/-- All that a snapshot can be. -/
theorem snapshotAt_cases {json : Json} (hjson : h.snapshotAt fuel path v = .ok json) :
    (v.handle? = none ∧ json = v.plainJson) ∨
      (∃ c, v.handle? = some c ∧ c ∈ path ∧ json = c.backReference) ∨
      ∃ c cell less parts, v.handle? = some c ∧ c ∉ path ∧ h.cell? c = some cell ∧ fuel = less + 1 ∧
        cell.contents.mapM (h.snapshotAt less (c :: path)) = .ok parts ∧
        json = cell.json parts := by
  cases hv : v.handle? with
  | none =>
    rw [snapshotAt_plain hv] at hjson
    exact Or.inl ⟨rfl, (Except.ok.inj hjson).symm⟩
  | some c =>
    by_cases hc : c ∈ path
    · rw [snapshotAt_back hv hc] at hjson
      exact Or.inr (Or.inl ⟨c, rfl, hc, (Except.ok.inj hjson).symm⟩)
    · cases fuel with
      | zero => exact absurd hjson (snapshotAt_stuck hv hc (Or.inl rfl) json)
      | succ fuel =>
        cases hcell : h.cell? c with
        | none => exact absurd hjson (snapshotAt_stuck hv hc (Or.inr hcell) json)
        | some cell =>
          rw [snapshotAt_cell hv hc hcell] at hjson
          obtain ⟨parts, hparts, rfl⟩ := exists_of_map_eq_ok hjson
          exact Or.inr (Or.inr ⟨c, cell, fuel, parts, rfl, hc, hcell, rfl, hparts, rfl⟩)

end

end Heap

end FieldAccess
