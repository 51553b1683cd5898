import FieldAccess.Proofs.LiveHandles
import Mathlib

/-! What a snapshot shows. A value is followed through the heap, and a cell met again below itself
is replaced by a back-reference; everything else is shown in full, each time it is met. -/
namespace FieldAccess

namespace Heap

/-! ### Renderings -/

/-- What stands for a value below the cells of a path: a value that is no handle for itself, a
back-reference for a cell on the path, and else what the cell holds, in its order and with the cell
on the path. -/
inductive Rendered (h : Heap) : List Handle → Value → Json → Prop where
  | plain {path : List Handle} {v : Value} : v.handle? = none → Rendered h path v v.plainJson
  | back {path : List Handle} {v : Value} {c : Handle} : v.handle? = some c → c ∈ path →
    Rendered h path v c.backReference
  | cell {path : List Handle} {v : Value} {c : Handle} {cell : Cell} {parts : List Json} :
    v.handle? = some c → c ∉ path → h.cell? c = some cell → parts.length = cell.contents.length →
    (∀ (i : Nat) (w : Value) (j : Json), cell.contents[i]? = some w → parts[i]? = some j →
      Rendered h (c :: path) w j) →
    Rendered h path v (cell.json parts)

theorem rendered_of_snapshotAt {h : Heap} {fuel : Nat} {path : List Handle} {v : Value}
    {json : Json}
    (hjson : h.snapshotAt fuel path v = .ok json) : h.Rendered path v json := by
  induction fuel using Nat.strongRecOn generalizing path v json with
  | ind fuel ih =>
    rcases snapshotAt_cases hjson with
      ⟨hv, rfl⟩ | ⟨c, hv, hc, rfl⟩ | ⟨c, cell, less, parts, hv, hc, hcell, rfl, hparts, rfl⟩
    · exact .plain hv
    · exact .back hv hc
    · obtain ⟨hlen, hall⟩ := mapM_eq_ok_iff.mp hparts
      exact .cell hv hc hcell hlen fun i w j hw hj =>
        ih less (Nat.lt_succ_self less) (hall i w j hw hj)

/-- A rendering below a path of distinct cells is found with fuel for the other cells. -/
theorem Rendered.snapshotAt {h : Heap} {path : List Handle} {v : Value} {json : Json}
    (hr : h.Rendered path v json) {fuel : Nat} (nodup : path.Nodup) (sub : path ⊆ h.cells)
    (room : h.size ≤ fuel + path.length) : h.snapshotAt fuel path v = .ok json := by
  induction hr generalizing fuel with
  | plain hv => exact snapshotAt_plain hv
  | back hv hc => exact snapshotAt_back hv hc
  | @cell path v c cell parts hv hc hcell hlen _ ih =>
    have hmem : c ∈ h.cells := mem_cells.mpr ⟨cell, hcell⟩
    obtain ⟨fuel, rfl⟩ := Nat.exists_eq_succ_of_ne_zero (room_of_path nodup sub hmem hc room).ne'
    have hparts : cell.contents.mapM (h.snapshotAt fuel (c :: path)) = .ok parts := by
      refine mapM_eq_ok_iff.mpr ⟨hlen, fun i w j hw hj => ?_⟩
      refine ih i w j hw hj (List.nodup_cons.mpr ⟨hc, nodup⟩) (List.cons_subset.mpr ⟨hmem, sub⟩) ?_
      rw [List.length_cons]
      omega
    rw [snapshotAt_cell hv hc hcell, hparts]
    rfl

/-- Snapshots are renderings, in every heap. -/
theorem snapshot_eq_ok_iff {h : Heap} {v : Value} {json : Json} :
    h.snapshot v = .ok json ↔ h.Rendered [] v json :=
  ⟨rendered_of_snapshotAt, fun hr =>
    hr.snapshotAt List.nodup_nil (List.nil_subset _) (Nat.le_refl _)⟩

/-- A handle is rendered by its back-reference or from what its cell holds. -/
theorem Rendered.of_handle {h : Heap} {path : List Handle} {v : Value} {json : Json}
    (hr : h.Rendered path v json) {c : Handle} (hv : v.handle? = some c) :
    (c ∈ path ∧ json = c.backReference) ∨
      (c ∉ path ∧ ∃ cell parts, h.cell? c = some cell ∧ json = cell.json parts ∧
        parts.length = cell.contents.length ∧
        ∀ (i : Nat) (w : Value) (j : Json), cell.contents[i]? = some w → parts[i]? = some j →
          h.Rendered (c :: path) w j) := by
  cases hr with
  | plain hnone => cases hv.symm.trans hnone
  | back hv' hc =>
    cases hv.symm.trans hv'
    exact Or.inl ⟨hc, rfl⟩
  | cell hv' hc hcell hlen hparts =>
    cases hv.symm.trans hv'
    exact Or.inr ⟨hc, _, _, hcell, rfl, hlen, hparts⟩

end Heap

/-! ### Places in a rendering -/

namespace Json

/-- A part of the rendering of a cell: an element of a list, or the value of a field. -/
def part? (j : Json) (i : Nat) : Option Json :=
  match j with
  | .arr parts => parts[i]?
  | j =>
    match j.get? "fields" with
    | some (.obj fields) => fields[i]?.map Prod.snd
    | _ => none

/-- The part at a place, which is given by the parts to go through. -/
def at? (j : Json) : List Nat → Option Json
  | [] => some j
  | i :: place => (j.part? i).bind (·.at? place)

theorem at?_snoc (j : Json) (place : List Nat) (i : Nat) :
    j.at? (place ++ [i]) = (j.at? place).bind (·.part? i) := by
  induction place generalizing j with
  | nil => simp [at?]
  | cons k place ih =>
    cases hk : j.part? k with
    | none => simp [at?, hk]
    | some j' => simp [at?, hk, ih]

end Json

theorem Handle.part?_backReference (c : Handle) (i : Nat) : c.backReference.part? i = none := by
  cases c <;> rfl

theorem Double.part?_toJson (x : Double) (i : Nat) : x.toJson.part? i = none := by
  unfold toJson
  split <;> rfl

theorem Value.part?_plainJson (v : Value) (i : Nat) : v.plainJson.part? i = none := by
  cases v with
  | float32 x => exact Double.part?_toJson _ i
  | float64 x => exact Double.part?_toJson _ i
  | _ => rfl

theorem Cell.part?_json {cell : Cell} {parts : List Json}
    (hlen : parts.length = cell.contents.length) (i : Nat) :
    (cell.json parts).part? i = parts[i]? := by
  cases cell with
  | seq items => rfl
  | object o =>
    have hfields : ((Cell.object o).json parts).part? i =
        ((o.slots.map Prod.fst).zip parts)[i]?.map Prod.snd := rfl
    rw [hfields, ← List.getElem?_map, List.map_snd_zip]
    simpa [Cell.contents] using Nat.le_of_eq hlen

/-- A back-reference is a text, and a cell that is shown is not. -/
theorem Cell.json_ne_backReference (cell : Cell) (parts : List Json) (c : Handle) :
    cell.json parts ≠ c.backReference := by
  cases cell <;> cases c <;> nofun

namespace Heap

/-- Where values occur when a root is followed: the place, the cells above it, the nearest first,
and the value. A cell is not entered below itself. -/
inductive Occurs (h : Heap) (root : Value) : List Nat → List Handle → Value → Prop where
  | root : Occurs h root [] [] root
  | inside {place : List Nat} {path : List Handle} {v w : Value} {c : Handle}
      {cell : Cell} {i : Nat} :
    Occurs h root place path v → v.handle? = some c → c ∉ path → h.cell? c = some cell →
    cell.contents[i]? = some w → Occurs h root (place ++ [i]) (c :: path) w

/-- A rendering shows each value at its place, as it is rendered below the cells above it. -/
theorem Rendered.shows {h : Heap} {root : Value} {json : Json} (hr : h.Rendered [] root json)
    {place : List Nat} {path : List Handle} {w : Value} (hw : h.Occurs root place path w) :
    ∃ j, json.at? place = some j ∧ h.Rendered path w j := by
  induction hw with
  | root => exact ⟨json, rfl, hr⟩
  | @inside place path v w c cell i _ hv hc hcell hi ih =>
    obtain ⟨j, hj, hrv⟩ := ih
    rcases hrv.of_handle hv with ⟨hc', _⟩ | ⟨_, cell', parts, hcell', rfl, hlen, hparts⟩
    · exact absurd hc' hc
    · cases hcell.symm.trans hcell'
      have hlt := (List.getElem?_eq_some_iff.mp hi).1
      have hpart := List.getElem?_eq_getElem (hlen ▸ hlt)
      refine ⟨_, ?_, hparts i w _ hi hpart⟩
      rw [Json.at?_snoc, hj, Option.bind_some, Cell.part?_json hlen, hpart]

/-- A rendering has no other places. -/
theorem Rendered.occurs {h : Heap} {root : Value} {json : Json} (hr : h.Rendered [] root json)
    {place : List Nat} {j : Json} (hj : json.at? place = some j) :
    ∃ path w, h.Occurs root place path w ∧ h.Rendered path w j := by
  induction place using List.reverseRecOn generalizing j with
  | nil =>
    cases hj
    exact ⟨[], root, .root, hr⟩
  | append_singleton place i ih =>
    rw [Json.at?_snoc] at hj
    obtain ⟨j', hj', hpart⟩ := Option.bind_eq_some_iff.mp hj
    obtain ⟨path, v, hv, hrv⟩ := ih hj'
    cases hrv with
    | plain _ =>
      rw [Value.part?_plainJson] at hpart
      cases hpart
    | back _ _ =>
      rw [Handle.part?_backReference] at hpart
      cases hpart
    | @cell _ _ c cell parts hc hnew hcell hlen hparts =>
      rw [Cell.part?_json hlen] at hpart
      obtain ⟨w, hw⟩ : ∃ w, cell.contents[i]? = some w := by
        have hlt := (List.getElem?_eq_some_iff.mp hpart).1
        exact ⟨_, List.getElem?_eq_getElem (hlen ▸ hlt)⟩
      exact ⟨c :: path, w, .inside hv hc hnew hcell hw, hparts i w j hw hpart⟩

theorem Rendered.eq_backReference_iff {h : Heap} {path : List Handle} {v : Value} {json : Json}
    (hr : h.Rendered path v json) {c : Handle} (hv : v.handle? = some c) :
    json = c.backReference ↔ c ∈ path := by
  rcases hr.of_handle hv with ⟨hc, rfl⟩ | ⟨hc, cell, parts, _, rfl, _⟩
  · exact ⟨fun _ => hc, fun _ => rfl⟩
  · exact ⟨fun heq => absurd heq (cell.json_ne_backReference parts c), fun hmem => absurd hmem hc⟩

/-! ### Reachable cells -/

/-- A cell holds a handle of another, or of itself. -/
def Points (h : Heap) (c d : Handle) : Prop :=
  ∃ cell, h.cell? c = some cell ∧ ∃ w ∈ cell.contents, w.handle? = some d

/-- A value leads to a cell, directly or through others. -/
def Reaches (h : Heap) (v : Value) (c : Handle) : Prop :=
  ∃ b, v.handle? = some b ∧ Relation.ReflTransGen h.Points b c

theorem reaches_self (h : Heap) {v : Value} {c : Handle}
    (hv : v.handle? = some c) : h.Reaches v c :=
  ⟨c, hv, .refl⟩

theorem points_of_getElem? {h : Heap} {c d : Handle} {cell : Cell} {i : Nat} {w : Value}
    (hcell : h.cell? c = some cell) (hw : cell.contents[i]? = some w) (hd : w.handle? = some d) :
    h.Points c d := ⟨cell, hcell, w, List.mem_of_getElem? hw, hd⟩

theorem reaches_of_getElem? {h : Heap} {v : Value} {c d : Handle} {cell : Cell} {i : Nat}
    {w : Value} (hv : v.handle? = some c) (hcell : h.cell? c = some cell)
    (hw : cell.contents[i]? = some w)
    (hd : h.Reaches w d) : h.Reaches v d := by
  obtain ⟨b, hb, path⟩ := hd
  exact ⟨c, hv, .head (points_of_getElem? hcell hw hb) path⟩

/-- A rendering depends only on the cells that the value leads to. -/
theorem Rendered.congr {h h' : Heap} {path : List Handle} {v : Value} {json : Json}
    (hr : h.Rendered path v json) (same : ∀ c, h.Reaches v c → h'.cell? c = h.cell? c) :
    h'.Rendered path v json := by
  induction hr with
  | plain hv => exact .plain hv
  | back hv hc => exact .back hv hc
  | cell hv hc hcell hlen _ ih =>
    refine .cell hv hc ((same _ (h.reaches_self hv)).trans hcell) hlen ?_
    intro i w j hw hj
    exact ih i w j hw hj fun d hd => same d (reaches_of_getElem? hv hcell hw hd)

/-! ### Values that reach no cycle -/

/-- No cell that the value leads to leads back to itself. -/
def Acyclic (h : Heap) (v : Value) : Prop := ∀ c, h.Reaches v c → ¬ Relation.TransGen h.Points c c

/-- A value with every handle replaced by what its cell holds. -/
inductive Unfolds (h : Heap) : Value → Json → Prop where
  | plain {v : Value} : v.handle? = none → Unfolds h v v.plainJson
  | cell {v : Value} {c : Handle} {cell : Cell} {parts : List Json} :
    v.handle? = some c → h.cell? c = some cell → parts.length = cell.contents.length →
    (∀ (i : Nat) (w : Value) (j : Json), cell.contents[i]? = some w → parts[i]? = some j →
      Unfolds h w j) →
    Unfolds h v (cell.json parts)

theorem Unfolds.unique {h : Heap} {v : Value} {j j' : Json} (hj : h.Unfolds v j)
    (hj' : h.Unfolds v j') : j = j' := by
  induction hj generalizing j' with
  | plain hv =>
    cases hj' with
    | plain _ => rfl
    | cell hv' _ _ _ => cases hv.symm.trans hv'
  | @cell v c cell parts hv hcell hlen _ ih =>
    cases hj' with
    | plain hv' => cases hv.symm.trans hv'
    | @cell _ c' cell' parts' hv' hcell' hlen' hall =>
      cases hv.symm.trans hv'
      cases hcell.symm.trans hcell'
      congr 1
      apply List.ext_getElem (hlen.trans hlen'.symm)
      intro i hi hi'
      exact ih i _ _ (List.getElem?_eq_getElem (hlen ▸ hi)) (List.getElem?_eq_getElem hi)
        (hall i _ _ (List.getElem?_eq_getElem (hlen ▸ hi)) (List.getElem?_eq_getElem hi'))

/-- The cells of the path lead to the value. -/
def Above (h : Heap) (path : List Handle) (v : Value) : Prop :=
  ∀ p ∈ path, ∀ c, v.handle? = some c → Relation.TransGen h.Points p c

theorem Above.inside {h : Heap} {path : List Handle} {v w : Value} {c : Handle} {cell : Cell}
    {i : Nat} (above : h.Above path v) (hv : v.handle? = some c) (hcell : h.cell? c = some cell)
    (hw : cell.contents[i]? = some w) : h.Above (c :: path) w := by
  intro p hp d hd
  have link : h.Points c d := points_of_getElem? hcell hw hd
  rcases List.mem_cons.mp hp with rfl | hp
  · exact .single link
  · exact (above p hp c hv).tail link

theorem Acyclic.inside {h : Heap} {v w : Value} {c : Handle} {cell : Cell} {i : Nat}
    (acyclic : h.Acyclic v) (hv : v.handle? = some c) (hcell : h.cell? c = some cell)
    (hw : cell.contents[i]? = some w) :
    h.Acyclic w :=
  fun d hd => acyclic d (reaches_of_getElem? hv hcell hw hd)

/-- A cell that a value refers to below itself lies on a cycle. -/
theorem Acyclic.notMem {h : Heap} {path : List Handle} {v : Value} {c : Handle}
    (acyclic : h.Acyclic v) (above : h.Above path v) (hv : v.handle? = some c) : c ∉ path :=
  fun hc => acyclic c (h.reaches_self hv) (above c hc c hv)

theorem Rendered.unfolds {h : Heap} {path : List Handle} {v : Value} {json : Json}
    (hr : h.Rendered path v json) (acyclic : h.Acyclic v) (above : h.Above path v) :
    h.Unfolds v json := by
  induction hr with
  | plain hv => exact .plain hv
  | back hv hc => exact absurd hc (acyclic.notMem above hv)
  | cell hv hc hcell hlen _ ih =>
    refine .cell hv hcell hlen ?_
    intro i w j hw hj
    exact ih i w j hw hj (acyclic.inside hv hcell hw) (above.inside hv hcell hw)

theorem Occurs.acyclic {h : Heap} {root : Value} (acyclic : h.Acyclic root) {place : List Nat}
    {path : List Handle} {w : Value} (hw : h.Occurs root place path w) :
    h.Acyclic w ∧ h.Above path w := by
  induction hw with
  | root => exact ⟨acyclic, nofun⟩
  | inside _ hv _ hcell hi ih => exact ⟨ih.1.inside hv hcell hi, ih.2.inside hv hcell hi⟩

end Heap

/-! ### Names of cells -/

namespace Handle

/-- What a back-reference calls a cell. -/
def text : Handle → String
  | object id => ObjectId.text id
  | seq id => SeqId.text id

theorem backReference_eq (c : Handle) : c.backReference = .str ("<cycle " ++ c.text ++ ">") := by
  cases c <;> rfl

/-- An object and a sequence are called differently, also where they have the same number. -/
theorem text_inj {c d : Handle} (heq : c.text = d.text) : c = d := by
  cases c with
  | object id =>
    cases d with
    | object id' => rw [Nat.repr_inj.mp ((String.append_right_inj _).mp heq)]
    | seq id' =>
      have hhead := congrArg (·.toList.head?) heq
      simp [text, ObjectId.text, SeqId.text] at hhead
  | seq id =>
    cases d with
    | object id' =>
      have hhead := congrArg (·.toList.head?) heq
      simp [text, ObjectId.text, SeqId.text] at hhead
    | seq id' => rw [Nat.repr_inj.mp ((String.append_right_inj _).mp heq)]

theorem backReference_inj {c d : Handle} (heq : c.backReference = d.backReference) : c = d := by
  rw [backReference_eq, backReference_eq, Json.str.injEq] at heq
  exact text_inj ((String.append_right_inj _).mp ((String.append_left_inj _).mp heq))

end Handle

namespace Heap

/-! ### The whole snapshot -/

/-- A live value of a sound heap has a snapshot. At each place it shows what the value there is, and
a handle by its back-reference exactly where its cell is one of those above the place; it has no
other places. A value that leads to no cycle is shown unfolded, back-references to different cells
differ, and only the cells that the value leads to matter. -/
theorem snapshots_show_paths {h : Heap} (sound : h.Sound) {v : Value} (live : h.Live v) :
    ∃ json, h.snapshot v = .ok json ∧ h.Rendered [] v json ∧
      (∀ place path w, h.Occurs v place path w → ∃ j, json.at? place = some j ∧
        h.Rendered path w j ∧ ∀ c, w.handle? = some c → (j = c.backReference ↔ c ∈ path)) ∧
      (∀ place j, json.at? place = some j → ∃ path w, h.Occurs v place path w) ∧
      (h.Acyclic v → (∀ j, h.Unfolds v j ↔ j = json) ∧
        ∀ place path w c, h.Occurs v place path w → w.handle? = some c → c ∉ path) ∧
      (∀ c d : Handle, c.backReference = d.backReference → c = d) ∧
      ∀ h' : Heap, (∀ c, h.Reaches v c → h'.cell? c = h.cell? c) → h'.snapshot v = .ok json := by
  obtain ⟨json, hjson⟩ := exists_snapshot sound live
  have hr := snapshot_eq_ok_iff.mp hjson
  refine ⟨json, hjson, hr, ?_, ?_, ?_, fun _ _ => Handle.backReference_inj, ?_⟩
  · intro place path w hw
    obtain ⟨j, hj, hrw⟩ := hr.shows hw
    exact ⟨j, hj, hrw, fun c hc => hrw.eq_backReference_iff hc⟩
  · intro place j hj
    obtain ⟨path, w, hw, _⟩ := hr.occurs hj
    exact ⟨path, w, hw⟩
  · intro acyclic
    have hunfolds := hr.unfolds acyclic nofun
    refine ⟨fun j => ⟨fun hj => hj.unique hunfolds, ?_⟩, ?_⟩
    · rintro rfl
      exact hunfolds
    · intro place path w c hw hc
      obtain ⟨hacyclic, above⟩ := hw.acyclic acyclic
      exact hacyclic.notMem above hc
  · intro h' same
    exact snapshot_eq_ok_iff.mpr (hr.congr same)

/-- An object that holds itself, and a list that holds the list with the object's number twice. -/
def knot : Heap where
  objects := [⟨0, "Knot", [("self", .object 0), ("tags", .seq 1)]⟩]
  sequences := [[.int32 1], [.seq 0, .seq 0]]

theorem not_points_knot_zero (d : Handle) : ¬ knot.Points (.seq 0) d := by
  simp [Points, knot, cell?, Cell.contents, Value.handle?]

theorem eq_of_points_knot_one {d : Handle} (hd : knot.Points (.seq 1) d) : d = .seq 0 := by
  simpa [Points, knot, cell?, Cell.contents, Value.handle?, eq_comm] using hd

theorem reaches_knot_one {c : Handle} (hc : knot.Reaches (.seq 1) c) : c = .seq 1 ∨ c = .seq 0 := by
  obtain ⟨b, hb, path⟩ := hc
  cases hb
  rcases Relation.ReflTransGen.cases_head path with heq | ⟨d, hd, rest⟩
  · exact Or.inl heq.symm
  · rw [eq_of_points_knot_one hd] at rest
    rcases Relation.ReflTransGen.cases_head rest with heq | ⟨e, he, _⟩
    · exact Or.inr heq.symm
    · exact absurd he (not_points_knot_zero e)

theorem acyclic_knot_one : knot.Acyclic (.seq 1) := by
  intro c hc loop
  obtain ⟨d, hd, rest⟩ := Relation.TransGen.head'_iff.mp loop
  rcases reaches_knot_one hc with rfl | rfl
  · rw [eq_of_points_knot_one hd] at rest
    rcases Relation.ReflTransGen.cases_head rest with heq | ⟨e, he, _⟩
    · cases heq
    · exact not_points_knot_zero e he
  · exact not_points_knot_zero d hd

/-- The object is shown once and then by its back-reference; the shared list is shown twice, below
the object and alone, and alone it does not need the object. -/
theorem knot_shown :
    knot.Sound ∧ knot.Live (.object 0) ∧ knot.Live (.seq 1) ∧ knot.Acyclic (.seq 1) ∧
      (∃ json, knot.snapshot (.object 0) = .ok json ∧
        json.at? [0] = some (.str "<cycle object@0>") ∧
        ∃ j, json.at? [1, 1] = some j ∧ j ≠ .str "<cycle sequence@0>") ∧
      knot.Unfolds (.seq 1) (.arr [.arr [.int 1], .arr [.int 1]]) ∧
      { knot with objects := [] }.snapshot (.seq 1) =
        .ok (.arr [.arr [.int 1], .arr [.int 1]]) := by
  have sound : knot.Sound := ⟨by decide, by decide⟩
  have object_live : knot.Live (.object 0) := by decide
  have list_live : knot.Live (.seq 1) := by decide
  obtain ⟨whole, hwhole, _, shown, _⟩ := snapshots_show_paths sound object_live
  obtain ⟨list, hlist, _, _, _, unfolded, _, frame⟩ := snapshots_show_paths sound list_live
  have object_text : (Handle.object 0).backReference = .str "<cycle object@0>" :=
    congrArg Json.str (by decide +kernel)
  have list_text : (Handle.seq 0).backReference = .str "<cycle sequence@0>" :=
    congrArg Json.str (by decide +kernel)
  have hself : knot.Occurs (.object 0) [0] [.object 0] (.object 0) :=
    .inside .root rfl List.not_mem_nil rfl rfl
  have hdeep : knot.Occurs (.object 0) [1, 1] [.seq 1, .object 0] (.seq 0) :=
    .inside (.inside .root rfl List.not_mem_nil rfl rfl) rfl (by decide) rfl rfl
  obtain ⟨back, hback, _, back_iff⟩ := shown [0] [.object 0] (.object 0) hself
  obtain ⟨deep, hdeep, _, deep_iff⟩ := shown [1, 1] [.seq 1, .object 0] (.seq 0) hdeep
  have hlist_eq : list = .arr [.arr [.int 1], .arr [.int 1]] := Except.ok.inj (hlist.symm.trans rfl)
  subst hlist_eq
  refine ⟨sound, object_live, list_live, acyclic_knot_one,
    ⟨whole, hwhole, ?_, deep, hdeep, ?_⟩, ?_, ?_⟩
  · rw [hback, (back_iff (.object 0) rfl).mpr (by decide), object_text]
  · rw [← list_text]
    exact mt (deep_iff (.seq 0) rfl).mp (by decide)
  · exact ((unfolded acyclic_knot_one).1 _).mpr rfl
  · apply frame
    intro c hc
    rcases reaches_knot_one hc with rfl | rfl
    · rfl
    · rfl

end Heap

end FieldAccess
