import FieldAccess.Proofs.Cells
import FieldAccess.Proofs.TypedHeaps

/-! Handles lead somewhere. If callers pass on only handles of cells that exist, then so does every
slot, every sequence and every result, whatever the bodies of the methods do and wherever they are
cut short; and a snapshot, which follows handles through a graph with cycles, always ends with a
text. -/
namespace FieldAccess

namespace Heap

/-- A value that is no handle, or the handle of a cell. -/
def Live (h : Heap) : Value → Prop
  | .object id => id < h.objects.length
  | .seq id => id < h.sequences.length
  | _ => True

instance (h : Heap) (v : Value) : Decidable (h.Live v) :=
  match v with
  | .object id => inferInstanceAs (Decidable (id < h.objects.length))
  | .seq id => inferInstanceAs (Decidable (id < h.sequences.length))
  | .null | .bool _ | .int8 _ | .int16 _ | .int32 _ | .int64 _ | .char _ | .float32 _ | .float64 _
  | .str _ => .isTrue trivial

/-- What is stored is live. -/
structure Sound (h : Heap) : Prop where
  slots : ∀ cell ∈ h.objects, ∀ s ∈ cell.slots, h.Live s.2
  items : ∀ items ∈ h.sequences, ∀ v ∈ items, h.Live v

theorem sound_empty : Heap.empty.Sound := ⟨nofun, nofun⟩

theorem Live.mono {h h' : Heap} (objects : h.objects.length ≤ h'.objects.length)
    (sequences : h.sequences.length ≤ h'.sequences.length) {v : Value} (hv : h.Live v) :
    h'.Live v := by
  cases v with
  | object id => exact Nat.lt_of_lt_of_le hv objects
  | seq id => exact Nat.lt_of_lt_of_le hv sequences
  | _ => trivial

theorem SameShape.live {h h' : Heap} (hs : h.SameShape h') {v : Value} (hv : h.Live v) :
    h'.Live v :=
  hv.mono (Nat.le_of_eq hs.objects.symm) (Nat.le_of_eq hs.sequences.symm)

theorem live_default (h : Heap) (t : TypeDesc) : h.Live (Value.default t) := by
  cases t with
  | primitive p => cases p <;> trivial
  | _ => trivial

theorem exists_object {h : Heap} {id : ObjectId} (hv : h.Live (.object id)) :
    ∃ cell, h.object id = .ok cell ∧ cell ∈ h.objects :=
  ⟨h.objects[id], object_eq_ok_iff.mpr (List.getElem?_eq_getElem hv), List.getElem_mem hv⟩

theorem exists_sequence {h : Heap} {id : SeqId} (hv : h.Live (.seq id)) :
    ∃ items, h.sequence id = .ok items ∧ items ∈ h.sequences :=
  ⟨h.sequences[id], sequence_eq_ok_iff.mpr (List.getElem?_eq_getElem hv), List.getElem_mem hv⟩

/-! ### Writes and allocation -/

theorem Sound.setSlot {h : Heap} (hs : h.Sound) (id : ObjectId) (field : String) {v : Value}
    (hv : h.Live v) : (h.setSlot id field v).Sound := by
  have hshape := sameShape_setSlot h id field v
  constructor
  · intro cell hc s hmem
    apply hshape.live
    obtain ⟨o, ho⟩ := List.getElem?_of_mem hc
    rw [objects_setSlot] at ho
    obtain ⟨old, hold, rfl⟩ := Option.map_eq_some_iff.mp ho
    have hslots := hs.slots old (List.mem_of_getElem? hold)
    split at hmem
    · rcases Assoc.mem_put hmem with rfl | hmem
      · exact hv
      · exact hslots s hmem
    · exact hslots s hmem
  · intro items hi w hw
    exact hshape.live (hs.items items hi w hw)

theorem Sound.setSequence {h : Heap} (hs : h.Sound) (id : SeqId) {items : List Value}
    (hitems : ∀ v ∈ items, h.Live v) : (h.setSequence id items).Sound := by
  have hshape := sameShape_setSequence h id items
  constructor
  · intro cell hc s hmem
    exact hshape.live (hs.slots cell hc s hmem)
  · intro new hnew v hv
    apply hshape.live
    rcases List.mem_or_eq_of_mem_set hnew with hold | rfl
    · exact hs.items new hold v hv
    · exact hitems v hv

theorem live_allocObject (h : Heap) (cell : ObjectCell) {v : Value} (hv : h.Live v) :
    (h.allocObject cell).1.Live v := by
  apply hv.mono
  · simp [allocObject]
  · exact Nat.le_refl _

theorem live_allocSequence (h : Heap) (items : List Value) {v : Value} (hv : h.Live v) :
    (h.allocSequence items).1.Live v := by
  apply hv.mono
  · exact Nat.le_refl _
  · simp [allocSequence]

theorem Sound.allocObject {h : Heap} (hs : h.Sound) {cell : ObjectCell}
    (hc : ∀ s ∈ cell.slots, h.Live s.2) : (h.allocObject cell).1.Sound := by
  constructor
  · intro new hnew s hmem
    apply live_allocObject
    rcases List.mem_append.mp hnew with hold | hnew
    · exact hs.slots new hold s hmem
    · rw [List.mem_singleton.mp hnew] at hmem
      exact hc s hmem
  · intro items hi v hv
    exact live_allocObject h cell (hs.items items hi v hv)

theorem Sound.allocSequence {h : Heap} (hs : h.Sound) {items : List Value}
    (hitems : ∀ v ∈ items, h.Live v) : (h.allocSequence items).1.Sound := by
  constructor
  · intro cell hc s hmem
    exact live_allocSequence h items (hs.slots cell hc s hmem)
  · intro new hnew v hv
    apply live_allocSequence
    rcases List.mem_append.mp hnew with hold | hnew
    · exact hs.items new hold v hv
    · rw [List.mem_singleton.mp hnew] at hv
      exact hitems v hv

/-! ### Snapshots -/

theorem live_iff {h : Heap} {v : Value} : h.Live v ↔ ∀ c, v.handle? = some c → c ∈ h.cells := by
  cases v with
  | object id => simp [Live, Value.handle?, cells]
  | seq id => simp [Live, Value.handle?, cells]
  | _ => simp [Live, Value.handle?]

theorem Sound.contents {h : Heap} (hs : h.Sound) {c : Handle} {cell : Cell}
    (hcell : h.cell? c = some cell) {w : Value} (hw : w ∈ cell.contents) : h.Live w := by
  cases c with
  | object id =>
    obtain ⟨o, ho, rfl⟩ := Option.map_eq_some_iff.mp hcell
    obtain ⟨s, hmem, rfl⟩ := List.mem_map.mp hw
    exact hs.slots o (List.mem_of_getElem? ho) s hmem
  | seq id =>
    obtain ⟨items, hitems, rfl⟩ := Option.map_eq_some_iff.mp hcell
    exact hs.items items (List.mem_of_getElem? hitems) w hw

/-- Below a path of distinct cells, fuel for the other cells is enough. -/
theorem exists_snapshotAt {h : Heap} (hs : h.Sound) {fuel : Nat} {path : List Handle} {v : Value}
    (hv : h.Live v) (nodup : path.Nodup) (sub : path ⊆ h.cells)
    (room : h.size ≤ fuel + path.length) : ∃ json, h.snapshotAt fuel path v = .ok json := by
  induction fuel generalizing path v with
  | zero =>
    cases hhandle : v.handle? with
    | none => exact ⟨_, snapshotAt_plain hhandle⟩
    | some c =>
      -- the path has met every cell, the one at hand included
      have hmem : c ∈ path := by
        by_contra hnew
        have hroom := room_of_path nodup sub (live_iff.mp hv c hhandle) hnew room
        omega
      exact ⟨_, snapshotAt_back hhandle hmem⟩
  | succ fuel ih =>
    cases hhandle : v.handle? with
    | none => exact ⟨_, snapshotAt_plain hhandle⟩
    | some c =>
      by_cases hmem : c ∈ path
      · exact ⟨_, snapshotAt_back hhandle hmem⟩
      · have hc := live_iff.mp hv c hhandle
        obtain ⟨cell, hcell⟩ := mem_cells.mp hc
        have below : ∀ w ∈ cell.contents, Succeeds (h.snapshotAt fuel (c :: path) w) := by
          intro w hw
          refine ih (hs.contents hcell hw) (List.nodup_cons.mpr ⟨hmem, nodup⟩)
            (List.cons_subset.mpr ⟨hc, sub⟩) ?_
          rw [List.length_cons]
          omega
        obtain ⟨parts, hparts⟩ := Succeeds.mapM below
        refine ⟨cell.json parts, ?_⟩
        rw [snapshotAt_cell hhandle hmem hcell, hparts]
        rfl

theorem exists_snapshot {h : Heap} (hs : h.Sound) {v : Value} (hv : h.Live v) :
    ∃ json, h.snapshot v = .ok json :=
  exists_snapshotAt hs hv List.nodup_nil (List.nil_subset _) (Nat.le_refl _)

end Heap

/-! ### Evaluation -/

/-- Evaluation from live values stores, reads and gives live values, and no handle fails. -/
def Law.live (ctx : Context) : Law ctx where
  inv := Heap.Sound
  rel := Heap.SameShape
  good := Heap.Live
  fault := EvalError.Ordinary
  refl := .refl
  trans := .trans
  stable hs hv := hs.live hv
  null _ := trivial
  bool _ _ := trivial
  ordinary _ he := he
  object _ hv he := by
    obtain ⟨cell, hcell, _⟩ := Heap.exists_object hv
    rw [hcell] at he
    cases he
  sequence _ hv he := by
    obtain ⟨items, hitems, _⟩ := Heap.exists_sequence hv
    rw [hitems] at he
    cases he
  slot hs hc hv :=
    hs.slots _ (List.mem_of_getElem? (Heap.object_eq_ok_iff.mp hc)) _ (Assoc.mem_of_get? hv)
  item hs hi hv := hs.items _ (List.mem_of_getElem? (Heap.sequence_eq_ok_iff.mp hi)) _ hv
  store hs hv _ _ _ := ⟨hs.setSlot _ _ hv, Heap.sameShape_setSlot _ _ _ _⟩
  replace hs _ hitems := ⟨hs.setSequence _ hitems, Heap.sameShape_setSequence _ _ _⟩

/-- An action that ends with live values, or fails for another reason than a handle. -/
def Heap.Safe {α : Type} (h : Heap) (x : Action α) (values : α → List Value) : Prop :=
  match x.run h with
  | .ok a h' => ∀ v ∈ values a, h'.Live v
  | .error e _ => e.Ordinary

theorem Law.Keeps.safe {ctx : Context} {α : Type} {h : Heap} {x : Action α} {post : α → Heap → Prop}
    {values : α → List Value} (hx : (Law.live ctx).Keeps h x post)
    (hpost : ∀ a h', post a h' → ∀ v ∈ values a, h'.Live v) : h.Safe x values := by
  unfold Law.Keeps at hx
  unfold Heap.Safe
  cases hr : x.run h with
  | ok a h' => rw [hr] at hx; exact hpost a h' hx.2.2
  | error e h' => rw [hr] at hx; exact hx.2.2

theorem Law.Gives.safe {ctx : Context} {h : Heap} {x : Action Value}
    (hx : (Law.live ctx).Gives h x) : h.Safe x fun v => [v] := by
  refine Law.Keeps.safe hx ?_
  intro v h' hv w hw
  rw [List.mem_singleton.mp hw]
  exact hv

theorem Law.keeps_readItems {ctx : Context} {L : Law ctx} {h : Heap} {v : Value} (hi : L.inv h)
    (hv : L.good h v) : L.Keeps h (Action.items v) fun items h' => ∀ w ∈ items, L.good h' w := by
  cases v with
  | seq id =>
    exact keeps_query hi (fun items hs w hw => L.item hi hs hw) fun _ he => L.sequence hi hv he
  | _ => exact keeps_throw hi (L.ordinary _ trivial)

/-! ### Requests -/

theorem Program.ordinary_of_findMethod {p : Program} {id : NodeId} {name : String} {e : EvalError}
    (he : p.findMethod id name = .error e) : e.Ordinary := by
  unfold Program.findMethod at he
  split at he
  · cases he
    trivial
  · split at he <;> cases he
    trivial

theorem Accessor.ordinary_of_locate {p : Program} {host : NodeId} {e : EvalError}
    (he : Accessor.locate p host = .error e) : e.Ordinary := by
  unfold Accessor.locate at he
  split at he
  · cases he
    trivial
  · split at he <;> cases he
    trivial

namespace Law

variable {ctx : Context} {L : Law ctx} {h : Heap}

theorem gives_callAt (a : Accessor) (depth : Nat) (name : String) {args : List Value} (hi : L.inv h)
    (ha : ∀ v ∈ args, L.good h v) : L.Gives h (a.callAt ctx depth name args) := by
  have hfind : L.Keeps h (Action.query fun _ => ctx.program.findMethod a.mapper name)
      fun _ _ => True :=
    keeps_query hi (fun _ _ => trivial) fun e he =>
      L.ordinary e (Program.ordinary_of_findMethod he)
  refine keeps_bind hfind fun method h' hi' hr _ => ?_
  refine holds_invokeWithin _ h' method none args hi' ?_ fun v hv => L.stable hr (ha v hv)
  intro v hv
  cases hv

theorem gives_client (host : NodeId) {use : Accessor → Action Value} (hi : L.inv h)
    (huse : ∀ a, L.Gives h (use a)) : L.Gives h (Request.client ctx host use) := by
  cases hl : Accessor.locate ctx.program host with
  | ok a =>
    have hgives := huse a
    unfold Gives Keeps at hgives ⊢
    rw [Request.client_of_ok hl]
    exact hgives
  | error e =>
    unfold Gives Keeps
    rw [Request.client_of_error hl]
    exact ⟨hi, L.refl h, L.ordinary e (Accessor.ordinary_of_locate hl)⟩

/-- The result of an action plays no part in what follows it. -/
theorem gives_discard {α : Type} {x : Action α} {post : α → Heap → Prop} (hx : L.Keeps h x post) :
    L.Gives h (do let _ ← (do let _ ← x : Action Unit); return .null) := by
  have hunit : L.Keeps h (do let _ ← x : Action Unit) fun _ _ => True :=
    keeps_bind hx fun _ _ hi' _ _ => keeps_pure hi' trivial
  exact keeps_bind hunit fun _ h' hi' _ _ => keeps_pure hi' (L.null h')

end Law

namespace Request

/-- The values that a request passes on. -/
def values : Request → List Value
  | instantiate _ => []
  | sequence items => items
  | invoke _ receiver args => receiver.toList ++ args
  | get _ instance_ _ | getTyped _ instance_ _ => [instance_]
  | set _ instance_ _ v | setTyped _ instance_ _ v => [instance_, v]

variable {ctx : Context} {h : Heap}

/-- Cells are never taken away, whatever a request does and passes on. -/
theorem live_after (r : Request) {v : Value} (hv : h.Live v) : (r.after ctx h).Live v := by
  rcases r.after_cases ctx h with ⟨id, rfl⟩ | ⟨items, rfl⟩ | heq | ⟨method, receiver, args, heq⟩
  · rcases after_instantiate ctx h id with heq | ⟨decl, _, heq⟩
    · rw [heq]
      exact hv
    · rw [heq]
      exact h.live_allocObject (ctx.program.newCell id decl) hv
  · exact h.live_allocSequence items hv
  · rw [heq]
    exact hv
  · rw [heq]
    exact (invokeAt_sameShape ctx 0 h method receiver args).live hv

/-- A request that passes on live values leaves live values stored, gives a live value back, and
does not fail for a handle. -/
structure Answers (ctx : Context) (r : Request) (h : Heap) : Prop where
  sound : (r.after ctx h).Sound
  safe : h.Safe (r.perform ctx) fun v => [v]

theorem answers_instantiate (hs : h.Sound) (id : NodeId) : (instantiate id).Answers ctx h := by
  cases hc : ctx.program.class? id with
  | none =>
    have hrun : ((instantiate id).perform ctx).run h = .error (.notAClass id) h :=
      instantiate_run_none hc h
    constructor
    · rw [after, Action.outcome_of_error hrun]
      exact hs
    · rw [Heap.Safe, hrun]
      trivial
  | some decl =>
    have hrun : ((instantiate id).perform ctx).run h =
        .ok (.object h.objects.length) (h.allocObject (ctx.program.newCell id decl)).1 :=
      instantiate_run hc h
    constructor
    · rw [after, Action.outcome_of_ok hrun]
      apply hs.allocObject
      intro s hmem
      obtain ⟨f, _, rfl⟩ := List.mem_map.mp (Assoc.mem_ofPairs hmem)
      exact h.live_default f.2.type
    · rw [Heap.Safe, hrun]
      simp [Heap.Live, Heap.allocObject]

theorem answers_sequence (hs : h.Sound) {items : List Value} (hitems : ∀ v ∈ items, h.Live v) :
    (sequence items).Answers ctx h := by
  have hrun : ((sequence items).perform ctx).run h =
      .ok (.seq h.sequences.length) (h.allocSequence items).1 := rfl
  constructor
  · rw [after, Action.outcome_of_ok hrun]
    exact hs.allocSequence hitems
  · rw [Heap.Safe, hrun]
    simp [Heap.Live, Heap.allocSequence]

theorem answers_of_gives {r : Request} (hr : (Law.live ctx).Gives h (r.perform ctx)) :
    r.Answers ctx h :=
  ⟨hr.outcome.1, hr.safe⟩

theorem answers (hs : h.Sound) (r : Request) (hr : ∀ v ∈ r.values, h.Live v) :
    r.Answers ctx h := by
  have hargs {args : List Value} (ha : ∀ v ∈ args, h.Live v) (a : Accessor) (name : String) :
      (Law.live ctx).Gives h (a.callAt ctx 0 name args) :=
    Law.gives_callAt a 0 name hs ha
  cases r with
  | instantiate id => exact answers_instantiate hs id
  | sequence items => exact answers_sequence hs hr
  | invoke method receiver args =>
    apply answers_of_gives
    apply Law.holds_invokeWithin _ h method receiver args hs
    · rintro v rfl
      exact hr v List.mem_cons_self
    · intro v hv
      exact hr v (List.mem_append_right _ hv)
  | get host instance_ key =>
    have hkeyed : ∀ w ∈ [instance_, .str key], h.Live w :=
      List.forall_mem_cons.mpr ⟨hr _ List.mem_cons_self, List.forall_mem_singleton.mpr trivial⟩
    exact answers_of_gives (Law.gives_client host hs fun a => hargs hkeyed a "get")
  | getTyped host instance_ field =>
    exact answers_of_gives (Law.gives_client host hs fun a => hargs hr a (Naming.getter field))
  | set host instance_ key v =>
    have hkeyed : ∀ w ∈ [instance_, .str key, v], h.Live w :=
      List.forall_mem_cons.mpr ⟨hr _ List.mem_cons_self,
        List.forall_mem_cons.mpr ⟨trivial, fun w hw => hr w (List.mem_cons_of_mem _ hw)⟩⟩
    exact answers_of_gives
      (Law.gives_client host hs fun a => Law.gives_discard (hargs hkeyed a "set"))
  | setTyped host instance_ field v =>
    exact answers_of_gives
      (Law.gives_client host hs fun a => Law.gives_discard (hargs hr a (Naming.setter field)))

end Request

/-- A history in which each request passes on only what is live when it is made. -/
def Admissible (ctx : Context) (start : Heap) : List Request → Prop
  | [] => True
  | r :: past =>
    Admissible ctx start past ∧ ∀ v ∈ r.values, (heapAfter ctx start past).Live v

theorem live_heapAfter (ctx : Context) {start : Heap} (past : List Request) {v : Value}
    (hv : start.Live v) : (heapAfter ctx start past).Live v := by
  induction past with
  | nil => exact hv
  | cons r past ih => exact r.live_after ih

theorem sound_heapAfter {ctx : Context} {start : Heap} (hs : start.Sound) {past : List Request}
    (admissible : Admissible ctx start past) : (heapAfter ctx start past).Sound := by
  induction past with
  | nil => exact hs
  | cons r past ih => exact (r.answers (ih admissible.1) admissible.2).sound

/-- In every heap that admissible requests lead to, whether they fail or not and whatever the bodies
of the methods do: all that is stored is live; the next admissible request gives a value that is
live from then on, or fails for another reason than a handle, and so does every reading of a live
value; what is live stays live, whatever comes, and has a snapshot. -/
theorem handles_never_dangle (ctx : Context) {past : List Request}
    (admissible : Admissible ctx .empty past) :
    (heapAfter ctx .empty past).Sound ∧
    (∀ r : Request, (∀ v ∈ r.values, (heapAfter ctx .empty past).Live v) →
      (∀ (v : Value) (h' : Heap), (r.perform ctx).run (heapAfter ctx .empty past) = .ok v h' →
        ∀ later : List Request, (heapAfter ctx .empty (later ++ r :: past)).Live v) ∧
      ∀ (e : EvalError) (h' : Heap),
        (r.perform ctx).run (heapAfter ctx .empty past) = .error e h' → e.Ordinary) ∧
    (∀ (id : NodeId) (name : String) (e : EvalError),
      ctx.program.findMethod id name = .error e → e.Ordinary) ∧
    ∀ v : Value, (heapAfter ctx .empty past).Live v →
      (∀ later : List Request, (heapAfter ctx .empty (later ++ past)).Live v) ∧
      (heapAfter ctx .empty past).Safe (Action.items v) id ∧
      (∀ field, (heapAfter ctx .empty past).Safe (Action.loadField v field) fun w => [w]) ∧
      (∀ t, (heapAfter ctx .empty past).Safe (Action.coerce ctx v t) fun w => [w]) ∧
      ∃ json, (heapAfter ctx .empty past).snapshot v = .ok json := by
  have hs := sound_heapAfter Heap.sound_empty admissible
  refine ⟨hs, ?_, fun id name e he => Program.ordinary_of_findMethod he, ?_⟩
  · intro r hr
    have hanswers : r.Answers ctx (heapAfter ctx .empty past) := r.answers hs hr
    have hsafe := hanswers.safe
    constructor
    · intro v h' hrun later
      rw [Heap.Safe, hrun] at hsafe
      have hreached : heapAfter ctx .empty (r :: past) = h' := by
        rw [heapAfter, Request.after, Action.outcome_of_ok hrun]
      rw [heapAfter_append, hreached]
      exact live_heapAfter ctx later (hsafe v List.mem_cons_self)
    · intro e h' hrun
      rw [Heap.Safe, hrun] at hsafe
      exact hsafe
  · intro v hv
    refine ⟨?_, ?_, ?_, ?_, Heap.exists_snapshot hs hv⟩
    · intro later
      rw [heapAfter_append]
      exact live_heapAfter ctx later hv
    · exact (Law.keeps_readItems (L := .live ctx) hs hv).safe fun _ _ hitems => hitems
    · exact fun field => (Law.gives_loadField (L := .live ctx) field hs hv).safe
    · exact fun t => (Law.gives_coerce (L := .live ctx) t hs hv).safe

/-- A link that is its own next one, after a refused write of null to a number. -/
theorem looped_link_rendered :
    let ctx := Context.ofProgram chainFile.toProgram
    let past : List Request :=
      [.invoke 6 (some (.object 0)) [.null], .invoke 3 (some (.object 0)) [.object 0],
        .instantiate 0]
    Admissible ctx .empty past ∧
      (heapAfter ctx .empty past).objects =
        [⟨0, "Link", [("next", .object 0), ("size", .int32 0)]⟩] ∧
      ∃ json, (heapAfter ctx .empty past).snapshot (.object 0) = .ok json := by
  intro ctx past
  have admissible : Admissible ctx .empty past := ⟨⟨⟨trivial, nofun⟩, by decide⟩, by decide⟩
  obtain ⟨_, _, _, hlive⟩ := handles_never_dangle ctx admissible
  obtain ⟨_, _, _, _, hjson⟩ := hlive (.object 0) (by decide)
  exact ⟨admissible, rfl, hjson⟩

end FieldAccess
