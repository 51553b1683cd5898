import FieldAccess.Proofs.Calls
import FieldAccess.Proofs.Subtyping

/-! Assignability as an order on types, and how far conversion follows it. The links between nominal
types are followed, `any` is above every type, and all else is above itself only. A value that is no
sequence goes up: what a type takes, every type above it takes. A sequence is taken by the types
below `sequence`, so that it goes down. -/
namespace FieldAccess

theorem TypeDesc.erasure_erasure (t : TypeDesc) : t.erasure.erasure = t.erasure := by
  cases t <;> rfl

namespace Hierarchy

variable {types : Hierarchy} {r s t : TypeDesc}

/-- Why one type is above another. -/
inductive Below (types : Hierarchy) : TypeDesc → TypeDesc → Prop where
  | top (s : TypeDesc) : Below types s .any
  | nominal {sub sup : String} (args args' : List TypeDesc) (path : types.Reaches sub sup) :
    Below types (.named sub args) (.named sup args')
  | same (t : TypeDesc) : Below types t t

/-- The arguments of both types are left out. -/
theorem isAssignable_erasure (types : Hierarchy) (s t : TypeDesc) :
    types.isAssignable s.erasure t.erasure = types.isAssignable s t := by
  simp only [isAssignable, TypeDesc.erasure_erasure]

/-- A type that is neither nominal nor `any` is above itself only. -/
theorem eq_of_isAssignable (h : types.isAssignable s t = true) (hany : t ≠ .any)
    (hname : t.name? = none) : s = t := by
  have heq : s.erasure = t := by
    cases t with
    | any => exact absurd rfl hany
    | named name args => cases hname
    | _ => cases s <;> exact of_decide_eq_true h
  cases s with
  | named name args =>
    subst heq
    cases hname
  | _ => exact heq

theorem isAssignable_iff_below : types.isAssignable s t = true ↔ types.Below s t := by
  constructor
  · intro h
    cases t with
    | any => exact .top s
    | named sup args' =>
      cases s with
      | named sub args => exact .nominal args args' ((isSubtype_iff_reaches types sub sup).mp h)
      | _ => cases h
    | _ =>
      obtain rfl := eq_of_isAssignable h (by rintro ⟨⟩) rfl
      exact .same _
  · intro h
    cases h with
    | top s => cases s <;> rfl
    | nominal args args' path => exact (isSubtype_iff_reaches types _ _).mpr path
    | same _ =>
      cases s with
      | named name args => exact (isSubtype_iff_reaches types name name).mpr .refl
      | _ => simp [isAssignable, TypeDesc.erasure]

theorem Below.trans (hrs : types.Below r s) (hst : types.Below s t) : types.Below r t := by
  cases hst with
  | top s => exact .top r
  | same s => exact hrs
  | nominal args args' path =>
    cases hrs with
    | nominal args'' _ path' => exact .nominal args'' args' (path'.trans path)
    | same _ => exact .nominal args args' path

end Hierarchy

namespace Heap

variable {h : Heap} {types : Hierarchy} {s t : TypeDesc}

/-- A nominal type takes an object whose class is below it. -/
theorem accepts_object_iff {o : ObjectId} {name : String} {args : List TypeDesc} :
    h.accepts types (.object o) (.named name args) = .ok true ↔
      ∃ cell, h.object o = .ok cell ∧ types.Reaches cell.className name := by
  cases hc : h.object o with
  | error e => simp [accepts, hc, bind, Except.bind]
  | ok cell =>
    simp [accepts, hc, bind, Except.bind, pure, Except.pure, Hierarchy.isSubtype_iff_reaches]

/-- What a type takes, a type above it takes, unless it is a sequence. -/
theorem accepts_of_below (below : types.Below s t) {v : Value} (hv : ∀ id, v ≠ .seq id)
    (hs : h.accepts types v s = .ok true) : h.accepts types v t = .ok true := by
  cases below with
  | top s => rfl
  | same t => exact hs
  | nominal args args' path =>
    cases v with
    | null => rfl
    | seq id => exact absurd rfl (hv id)
    | str text =>
      have hsub := (Hierarchy.isSubtype_iff_reaches types _ _).mp (Except.ok.inj hs)
      exact congrArg Except.ok ((Hierarchy.isSubtype_iff_reaches types _ _).mpr (hsub.trans path))
    | object o =>
      obtain ⟨cell, hc, hsub⟩ := accepts_object_iff.mp hs
      exact accepts_object_iff.mpr ⟨cell, hc, hsub.trans path⟩
    | _ => cases hs

/-- A nominal type takes sequences if a type above it does. -/
theorem accepts_seq_of_reaches {sub sup : String} (path : types.Reaches sub sup)
    (args args' : List TypeDesc) {id : SeqId}
    (hsup : h.accepts types (.seq id) (.named sup args') = .ok true) :
    h.accepts types (.seq id) (.named sub args) = .ok true := by
  have hfamily := (Hierarchy.isSubtype_iff_reaches types _ _).mp (Except.ok.inj hsup)
  exact congrArg Except.ok ((Hierarchy.isSubtype_iff_reaches types _ _).mpr (path.trans hfamily))

theorem coerce_eq_ok_iff {v w : Value} :
    h.coerce types v t = .ok w ↔ w = v ∧ h.accepts types v t = .ok true := by
  constructor
  · intro hw
    obtain rfl := eq_of_coerce hw
    exact ⟨rfl, coerce_ok_iff.mp hw⟩
  · rintro ⟨rfl, ha⟩
    exact coerce_ok_iff.mpr ha

end Heap

/-- In every hierarchy, with cycles or without, assignability is reflexive and transitive and looks
at no arguments of types. In every heap, a value other than a sequence that converts to a type
converts to every type above it, and a sequence that converts to a nominal type converts to every
nominal type below it, always to the value it is. -/
theorem conversion_follows_assignability (types : Hierarchy) :
    (∀ t, types.isAssignable t t = true) ∧
    (∀ r s t, types.isAssignable r s = true → types.isAssignable s t = true →
      types.isAssignable r t = true) ∧
    (∀ s s' t t', s.erasure = s'.erasure → t.erasure = t'.erasure →
      types.isAssignable s t = types.isAssignable s' t') ∧
    ∀ (h : Heap) (s t : TypeDesc), types.isAssignable s t = true →
      (∀ v w : Value, (∀ id, v ≠ .seq id) → h.coerce types v s = .ok w →
        w = v ∧ h.coerce types v t = .ok w) ∧
      ∀ (sub sup : String) (args args' : List TypeDesc), s = .named sub args →
      t = .named sup args' →
        ∀ (id : SeqId) (w : Value), h.coerce types (.seq id) t = .ok w →
          w = .seq id ∧ h.coerce types (.seq id) s = .ok w := by
  refine ⟨fun t => Hierarchy.isAssignable_iff_below.mpr (.same t), ?_, ?_, ?_⟩
  · intro r s t hrs hst
    rw [Hierarchy.isAssignable_iff_below] at hrs hst ⊢
    exact hrs.trans hst
  · intro s s' t t' hs ht
    rw [← Hierarchy.isAssignable_erasure, hs, ht, Hierarchy.isAssignable_erasure]
  · intro h s t assignable
    constructor
    · intro v w hv hw
      obtain ⟨rfl, hs⟩ := Heap.coerce_eq_ok_iff.mp hw
      have below := Hierarchy.isAssignable_iff_below.mp assignable
      exact ⟨rfl, Heap.coerce_eq_ok_iff.mpr ⟨rfl, Heap.accepts_of_below below hv hs⟩⟩
    · rintro sub sup args args' rfl rfl id w hw
      obtain ⟨rfl, hsup⟩ := Heap.coerce_eq_ok_iff.mp hw
      have path := (Hierarchy.isSubtype_iff_reaches types sub sup).mp assignable
      exact ⟨rfl, Heap.coerce_eq_ok_iff.mpr ⟨rfl, Heap.accepts_seq_of_reaches path args args' hsup⟩⟩

/-- Two names declared below each other, one of them below `list`. -/
def ringTypes : Hierarchy :=
  (Hierarchy.builtin.declare "A" ["B"]).declare "B" ["A", TypeDesc.listName]

/-- An object goes round the ring and on to `sequence`; a sequence goes the other way. -/
theorem ring_conversions :
    let h : Heap := ⟨[⟨0, "B", []⟩], [[.int32 1]]⟩
    ringTypes.isAssignable (.named "A" [.string]) (.ofName TypeDesc.sequenceName) = true ∧
      h.coerce ringTypes (.object 0) (.ofName TypeDesc.sequenceName) = .ok (.object 0) ∧
      h.coerce ringTypes (.seq 0) (.named "A" [.string]) = .ok (.seq 0) := by
  intro h
  obtain ⟨_, trans, _, conversions⟩ := conversion_follows_assignability ringTypes
  have assignable :
      ringTypes.isAssignable (.named "A" [.string]) (.ofName TypeDesc.sequenceName) = true :=
    trans _ (.ofName "B") _ (by decide) (by decide)
  obtain ⟨up, down⟩ := conversions h _ _ assignable
  exact ⟨assignable, (up (.object 0) (.object 0) nofun rfl).2,
    (down "A" TypeDesc.sequenceName [.string] [] rfl rfl 0 (.seq 0) rfl).2⟩

end FieldAccess
