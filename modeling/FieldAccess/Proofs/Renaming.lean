import FieldAccess.Proofs.Batches
import Mathlib.Data.Set.Function

/-! Other ids for the same nodes. What a catalog finds and what synthesis makes of it follow a
renaming: ids are handed on and compared with nothing. -/
namespace FieldAccess

/-! ### Bodies and declarations -/

def CallTarget.rename (ρ : NodeId → NodeId) : CallTarget → CallTarget
  | member id => member (ρ id)
  | sequence op => sequence op

mutual

def Expr.rename (ρ : NodeId → NodeId) : Expr → Expr
  | .var name => .var name
  | .this => .this
  | .loadField object field => .loadField (object.rename ρ) field
  | .cast type value => .cast type (value.rename ρ)
  | .notNull value => .notNull (value.rename ρ)
  | .call none target args => .call none (target.rename ρ) (Expr.renameAll ρ args)
  | .call (some receiver) target args =>
    .call (some (receiver.rename ρ)) (target.rename ρ) (Expr.renameAll ρ args)

def Expr.renameAll (ρ : NodeId → NodeId) : List Expr → List Expr
  | [] => []
  | e :: es => e.rename ρ :: Expr.renameAll ρ es

end

mutual

def Stmt.rename (ρ : NodeId → NodeId) : Stmt → Stmt
  | .expr e => .expr (e.rename ρ)
  | .ret value => .ret (value.rename ρ)
  | .branch cond thenBlock elseBlock =>
    .branch (cond.rename ρ) (Block.rename ρ thenBlock) (Block.rename ρ elseBlock)
  | .switch scrutinee cases default =>
    .switch (scrutinee.rename ρ) (Block.renameCases ρ cases) (Block.rename ρ default)
  | .bind name type value => .bind name type (value.rename ρ)
  | .storeField object field value => .storeField (object.rename ρ) field (value.rename ρ)
  | .throw (.unknownField key) => .throw (.unknownField (key.rename ρ))

def Block.rename (ρ : NodeId → NodeId) : List Stmt → List Stmt
  | [] => []
  | s :: ss => s.rename ρ :: Block.rename ρ ss

def Block.renameCases (ρ : NodeId → NodeId) : List (String × List Stmt) → List (String × List Stmt)
  | [] => []
  | (label, body) :: rest => (label, Block.rename ρ body) :: Block.renameCases ρ rest

end

def MethodDecl.rename (ρ : NodeId → NodeId) (m : MethodDecl) : MethodDecl :=
  { m with body := m.body.map (Block.rename ρ) }

def Node.rename (ρ : NodeId → NodeId) : Node → Node
  | cls c => cls { c with members := c.members.map ρ }
  | field f => field f
  | method m => method (m.rename ρ)

def MethodSpec.rename (ρ : NodeId → NodeId) (s : MethodSpec) : MethodSpec :=
  { s with body := Block.rename ρ s.body }

def MapperSpec.rename (ρ : NodeId → NodeId) (m : MapperSpec) : MapperSpec :=
  { m with host := ρ m.host, methods := m.methods.map (MethodSpec.rename ρ) }

/-! ### The calls of a body -/

mutual

/-- Every call in an expression has a target that is right for its number of arguments. -/
def Expr.EveryCall (ok : CallTarget → Nat → Prop) : Expr → Prop
  | .var _ => True
  | .this => True
  | .loadField object _ => object.EveryCall ok
  | .cast _ value => value.EveryCall ok
  | .notNull value => value.EveryCall ok
  | .call none target args => ok target args.length ∧ Expr.EveryArg ok args
  | .call (some receiver) target args =>
    receiver.EveryCall ok ∧ ok target args.length ∧ Expr.EveryArg ok args

def Expr.EveryArg (ok : CallTarget → Nat → Prop) : List Expr → Prop
  | [] => True
  | e :: es => e.EveryCall ok ∧ Expr.EveryArg ok es

end

mutual

def Stmt.EveryCall (ok : CallTarget → Nat → Prop) : Stmt → Prop
  | .expr e => e.EveryCall ok
  | .ret value => value.EveryCall ok
  | .branch cond thenBlock elseBlock =>
    cond.EveryCall ok ∧ Block.EveryCall ok thenBlock ∧ Block.EveryCall ok elseBlock
  | .switch scrutinee cases default =>
    scrutinee.EveryCall ok ∧ Block.EveryCase ok cases ∧ Block.EveryCall ok default
  | .bind _ _ value => value.EveryCall ok
  | .storeField object _ value => object.EveryCall ok ∧ value.EveryCall ok
  | .throw (.unknownField key) => key.EveryCall ok

def Block.EveryCall (ok : CallTarget → Nat → Prop) : List Stmt → Prop
  | [] => True
  | s :: ss => s.EveryCall ok ∧ Block.EveryCall ok ss

def Block.EveryCase (ok : CallTarget → Nat → Prop) : List (String × List Stmt) → Prop
  | [] => True
  | (_, body) :: rest => Block.EveryCall ok body ∧ Block.EveryCase ok rest

end

mutual

theorem Expr.EveryCall.mono {ok ok' : CallTarget → Nat → Prop} (hok : ∀ t n, ok t n → ok' t n)
    (e : Expr) (h : e.EveryCall ok) : e.EveryCall ok' := by
  cases e with
  | var name => trivial
  | this => trivial
  | loadField object field => exact Expr.EveryCall.mono hok object h
  | cast type value => exact Expr.EveryCall.mono hok value h
  | notNull value => exact Expr.EveryCall.mono hok value h
  | call receiver target args =>
    cases receiver with
    | none => exact ⟨hok _ _ h.1, Expr.EveryArg.mono hok args h.2⟩
    | some receiver =>
      exact ⟨Expr.EveryCall.mono hok receiver h.1, hok _ _ h.2.1, Expr.EveryArg.mono hok args h.2.2⟩

theorem Expr.EveryArg.mono {ok ok' : CallTarget → Nat → Prop} (hok : ∀ t n, ok t n → ok' t n)
    (es : List Expr) (h : Expr.EveryArg ok es) : Expr.EveryArg ok' es := by
  cases es with
  | nil => trivial
  | cons e es => exact ⟨Expr.EveryCall.mono hok e h.1, Expr.EveryArg.mono hok es h.2⟩

end

mutual

theorem Stmt.EveryCall.mono {ok ok' : CallTarget → Nat → Prop} (hok : ∀ t n, ok t n → ok' t n)
    (s : Stmt) (h : s.EveryCall ok) : s.EveryCall ok' := by
  cases s with
  | expr e => exact Expr.EveryCall.mono hok e h
  | ret value => exact Expr.EveryCall.mono hok value h
  | branch cond thenBlock elseBlock =>
    exact ⟨Expr.EveryCall.mono hok cond h.1, Block.EveryCall.mono hok thenBlock h.2.1,
      Block.EveryCall.mono hok elseBlock h.2.2⟩
  | switch scrutinee cases default =>
    exact ⟨Expr.EveryCall.mono hok scrutinee h.1, Block.EveryCase.mono hok cases h.2.1,
      Block.EveryCall.mono hok default h.2.2⟩
  | bind name type value => exact Expr.EveryCall.mono hok value h
  | storeField object field value =>
    exact ⟨Expr.EveryCall.mono hok object h.1, Expr.EveryCall.mono hok value h.2⟩
  | throw failure =>
    cases failure with
    | unknownField key => exact Expr.EveryCall.mono hok key h

theorem Block.EveryCall.mono {ok ok' : CallTarget → Nat → Prop} (hok : ∀ t n, ok t n → ok' t n)
    (ss : List Stmt) (h : Block.EveryCall ok ss) : Block.EveryCall ok' ss := by
  cases ss with
  | nil => trivial
  | cons s ss => exact ⟨Stmt.EveryCall.mono hok s h.1, Block.EveryCall.mono hok ss h.2⟩

theorem Block.EveryCase.mono {ok ok' : CallTarget → Nat → Prop} (hok : ∀ t n, ok t n → ok' t n)
    (cases : List (String × List Stmt)) (h : Block.EveryCase ok cases) :
    Block.EveryCase ok' cases := by
  cases cases with
  | nil => trivial
  | cons c rest =>
    obtain ⟨label, body⟩ := c
    exact ⟨Block.EveryCall.mono hok body h.1, Block.EveryCase.mono hok rest h.2⟩

end

theorem Block.everyCase_iff {ok : CallTarget → Nat → Prop} {cases : List (String × List Stmt)} :
    Block.EveryCase ok cases ↔ ∀ c ∈ cases, Block.EveryCall ok c.2 := by
  induction cases with
  | nil => simp [Block.EveryCase]
  | cons c rest ih =>
    obtain ⟨label, body⟩ := c
    rw [Block.EveryCase, ih, List.forall_mem_cons]

theorem Block.renameCases_eq_map (ρ : NodeId → NodeId) (cases : List (String × List Stmt)) :
    Block.renameCases ρ cases = cases.map fun c => (c.1, Block.rename ρ c.2) := by
  induction cases with
  | nil => rfl
  | cons c rest ih =>
    obtain ⟨label, body⟩ := c
    rw [Block.renameCases, ih, List.map_cons]

/-! ### Synthesis -/

namespace Synthesis

section Calls

variable {ok : CallTarget → Nat → Prop}
variable (clear : ok (.sequence .clear) 0) (appendAll : ok (.sequence .appendAll) 1)
include clear appendAll

theorem everyCall_assignSequence {f : FieldDesc} (hget : ok (.member f.getter) 0)
    (hset : ok (.member f.setter) 1) (name : String) :
    Block.EveryCall ok (assignSequence f (.var name)) := by
  have hread : (getterCall f).EveryCall ok := ⟨trivial, hget, trivial⟩
  have hwrite : (setterCall f (.var name)).EveryCall ok := ⟨trivial, hset, trivial, trivial⟩
  refine ⟨⟨hread, ⟨?_, ?_, trivial⟩, hwrite, trivial⟩, trivial⟩
  · exact ⟨hread, clear, trivial⟩
  · exact ⟨hread, appendAll, trivial, trivial⟩

theorem everyCall_setCase {f : FieldDesc} (hget : ok (.member f.getter) 0)
    (hset : ok (.member f.setter) 1) : Block.EveryCall ok (setCase f) := by
  unfold setCase
  cases f.type with
  | scalar declared => exact ⟨⟨trivial, hset, trivial, trivial⟩, trivial⟩
  | sequence declared => exact ⟨trivial, everyCall_assignSequence clear appendAll hget hset _⟩

theorem everyCall_typedSet (host : TypeDesc) {f : FieldDesc} (hget : ok (.member f.getter) 0)
    (hset : ok (.member f.setter) 1) : Block.EveryCall ok (typedSet host f).body := by
  unfold typedSet
  cases f.type with
  | scalar declared => exact ⟨⟨trivial, hset, trivial, trivial⟩, trivial⟩
  | sequence declared => exact everyCall_assignSequence clear appendAll hget hset _

omit clear appendAll in
theorem everyCall_getCase {f : FieldDesc} (hget : ok (.member f.getter) 0) :
    Block.EveryCall ok (getCase f) := by
  exact ⟨⟨trivial, hget, trivial⟩, trivial⟩

omit clear appendAll in
theorem everyCall_dispatch {fields : List FieldDesc} {body : FieldDesc → Block}
    (h : ∀ f ∈ fields, Block.EveryCall ok (body f)) :
    Block.EveryCall ok (dispatch fields body) := by
  refine ⟨⟨trivial, Block.everyCase_iff.mpr ?_, trivial, trivial⟩, trivial⟩
  intro c hc
  obtain ⟨f, hf, rfl⟩ := List.mem_map.mp (Assoc.mem_ofPairs hc)
  exact h f hf

/-- An accessor type calls the accessors of its fields and the two operations of sequences. -/
theorem everyCall_mapper {host : NodeId} {hostName : String} {fields : List FieldDesc}
    (hget : ∀ f ∈ fields, ok (.member f.getter) 0) (hset : ∀ f ∈ fields, ok (.member f.setter) 1)
    {s : MethodSpec} (hs : s ∈ (mapper host hostName fields).methods) :
    Block.EveryCall ok s.body := by
  rcases Accessor.ServesOnly.mem_methods hs with rfl | rfl | ⟨f, hf, rfl | rfl⟩
  · exact everyCall_dispatch fun f hf => everyCall_setCase clear appendAll (hget f hf) (hset f hf)
  · exact everyCall_dispatch fun f hf => everyCall_getCase (hget f hf)
  · exact everyCall_typedSet clear appendAll _ (hget f hf) (hset f hf)
  · exact everyCall_getCase (hget f hf)

/-- What is true of every method that a catalog may pick is true of the calls in the accessor
type. -/
theorem everyCall_of_synthesize {p : Program} {types : Hierarchy} {host : NodeId} {m : MapperSpec}
    (hm : synthesize p types host = .ok m)
    (hpick : ∀ {preferred : MethodDecl → Bool} {name : String} {arity : Nat} {id : NodeId}
      (found : Nat), Catalog.pick preferred (Catalog.instanceMethods p host name arity) = some id →
      ok (.member id) found)
    {s : MethodSpec} (hs : s ∈ m.methods) : Block.EveryCall ok s.body := by
  obtain ⟨fields, d, hcatalog, _, rfl⟩ := synthesize_ok hm
  have hall := (catalog_ok hcatalog).2.1
  refine everyCall_mapper clear appendAll ?_ ?_ hs
  · intro f hf
    obtain ⟨_, _, described⟩ := Catalog.exists_entry hall hf
    exact hpick 0 described.getter
  · intro f hf
    obtain ⟨_, _, described⟩ := Catalog.exists_entry hall hf
    exact hpick 1 described.setter

end Calls

variable (ρ : NodeId → NodeId)

theorem setCase_rename (f : FieldDesc) : setCase (f.rename ρ) = Block.rename ρ (setCase f) := by
  unfold setCase
  have htype : (f.rename ρ).type = f.type := rfl
  rw [htype]
  cases f.type <;> rfl

theorem getCase_rename (f : FieldDesc) : getCase (f.rename ρ) = Block.rename ρ (getCase f) := rfl

theorem dispatch_rename {body : FieldDesc → Block}
    (h : ∀ f : FieldDesc, body (f.rename ρ) = Block.rename ρ (body f)) (fields : List FieldDesc) :
    dispatch (fields.map (FieldDesc.rename ρ)) body = Block.rename ρ (dispatch fields body) := by
  have hpairs : (fields.map (FieldDesc.rename ρ)).map (fun f => (f.name, body f)) =
      (fields.map fun f => (f.name, body f)).map fun p => (p.1, Block.rename ρ p.2) := by
    rw [List.map_map, List.map_map]
    refine List.map_congr_left fun f _ => ?_
    simp only [Function.comp_apply, h]
    rfl
  simp only [dispatch, hpairs, Assoc.ofPairs_mapValues, Block.rename, Stmt.rename,
    Block.renameCases_eq_map, Expr.rename]

theorem typedSet_rename (host : TypeDesc) (f : FieldDesc) :
    typedSet host (f.rename ρ) = (typedSet host f).rename ρ := by
  obtain ⟨name, capitalized, type, field, getter, setter⟩ := f
  cases type <;> rfl

theorem typedGet_rename (host : TypeDesc) (f : FieldDesc) :
    typedGet host (f.rename ρ) = (typedGet host f).rename ρ := rfl

theorem mapper_rename (host : NodeId) (hostName : String) (fields : List FieldDesc) :
    mapper (ρ host) hostName (fields.map (FieldDesc.rename ρ)) =
      (mapper host hostName fields).rename ρ := by
  have hset := dispatch_rename ρ (setCase_rename ρ) fields
  have hget := dispatch_rename ρ (getCase_rename ρ) fields
  have hpairs : ∀ t : TypeDesc, ((fields.map (FieldDesc.rename ρ)).flatMap fun f =>
      [typedSet t f, typedGet t f]) =
      (fields.flatMap fun f => [typedSet t f, typedGet t f]).map (MethodSpec.rename ρ) := by
    intro t
    rw [List.flatMap_map, List.map_flatMap]
    simp only [typedSet_rename, typedGet_rename, List.map_cons, List.map_nil]
  simp only [mapper, MapperSpec.rename, dynamicSet, dynamicGet, MethodSpec.rename,
    hset, hget, hpairs, List.map_cons]

end Synthesis

/-! ### Programs -/

/-- What a node refers to lies in a set: members of a class, and the targets of calls, which are
methods. -/
def Node.Within (p : Program) (S : Set NodeId) : Node → Prop
  | .cls c => ∀ m ∈ c.members, m ∈ S
  | .field _ => True
  | .method m => ∀ body, m.body = some body →
    Block.EveryCall (fun target _ => ∀ id, target = .member id → id ∈ S ∧
      ∃ d, p.method? id = some d) body

namespace Program

/-- On a set of nodes that refer to each other only, `q` is `p` with other ids. -/
structure Renames (p q : Program) (ρ : NodeId → NodeId) (S : Set NodeId) : Prop where
  injective : Set.InjOn ρ S
  node : ∀ id ∈ S, ∃ n, p.node? id = some n ∧ q.node? (ρ id) = some (n.rename ρ) ∧ n.Within p S

namespace Renames

variable {p q : Program} {ρ : NodeId → NodeId} {S : Set NodeId} (renames : p.Renames q ρ S)
include renames

theorem node?_eq {id : NodeId} (hid : id ∈ S) :
    q.node? (ρ id) = (p.node? id).map (Node.rename ρ) := by
  obtain ⟨n, hn, hq, _⟩ := renames.node id hid
  rw [hn, hq]
  rfl

theorem class?_eq {id : NodeId} (hid : id ∈ S) {c : ClassDecl} (hc : p.class? id = some c) :
    q.class? (ρ id) = some { c with members := c.members.map ρ } := by
  rw [class?_eq_some_iff] at hc ⊢
  rw [renames.node?_eq hid, hc]
  rfl

theorem mem_of_mem_members {id : NodeId} (hid : id ∈ S) {c : ClassDecl} (hc : p.class? id = some c)
    {m : NodeId} (hm : m ∈ c.members) : m ∈ S := by
  obtain ⟨n, hn, _, within⟩ := renames.node id hid
  obtain rfl : n = .cls c := Option.some.inj (hn.symm.trans (class?_eq_some_iff.mp hc))
  exact within m hm

theorem of_mem_members {id : NodeId} (hid : id ∈ S) {c : ClassDecl} (hc : p.class? id = some c)
    {x : NodeId × Node} (hx : x ∈ p.members id) : x.1 ∈ S ∧ p.node? x.1 = some x.2 := by
  simp only [members, hc, List.mem_filterMap, Option.map_eq_some_iff] at hx
  obtain ⟨m, hm, n, hn, rfl⟩ := hx
  exact ⟨renames.mem_of_mem_members hid hc hm, hn⟩

theorem members_eq {id : NodeId} (hid : id ∈ S) {c : ClassDecl} (hc : p.class? id = some c) :
    q.members (ρ id) = (p.members id).map fun x => (ρ x.1, x.2.rename ρ) := by
  simp only [members, hc, renames.class?_eq hid hc, List.filterMap_map, List.map_filterMap]
  refine List.filterMap_congr fun m hm => ?_
  rw [Function.comp_apply, renames.node?_eq (renames.mem_of_mem_members hid hc hm), Option.map_map,
    Option.map_map]
  rfl

theorem membersAs_eq {α : Type} (kind : Node → Option α) (g : α → α)
    (hkind : ∀ n : Node, kind (n.rename ρ) = (kind n).map g) {id : NodeId} (hid : id ∈ S)
    {c : ClassDecl} (hc : p.class? id = some c) :
    membersAs kind q (ρ id) = (membersAs kind p id).map fun x => (ρ x.1, g x.2) := by
  rw [membersAs, renames.members_eq hid hc, List.filterMap_map, membersAs, List.map_filterMap]
  refine List.filterMap_congr fun m _ => ?_
  simp only [Function.comp_apply, hkind, Option.map_map]
  rfl

theorem fieldsOf_eq {id : NodeId} (hid : id ∈ S) {c : ClassDecl} (hc : p.class? id = some c) :
    q.fieldsOf (ρ id) = (p.fieldsOf id).map fun x => (ρ x.1, x.2) := by
  refine renames.membersAs_eq Node.asField? (fun f => f) ?_ hid hc
  intro n
  cases n <;> rfl

theorem instanceMethods_eq {id : NodeId} (hid : id ∈ S) {c : ClassDecl} (hc : p.class? id = some c)
    (name : String) (arity : Nat) :
    Catalog.instanceMethods q (ρ id) name arity =
      (Catalog.instanceMethods p id name arity).map fun x => (ρ x.1, x.2.rename ρ) := by
  have hmethods : q.methodsOf (ρ id) = (p.methodsOf id).map fun x => (ρ x.1, x.2.rename ρ) := by
    refine renames.membersAs_eq Node.asMethod? (MethodDecl.rename ρ) ?_ hid hc
    intro n
    cases n <;> rfl
  rw [Catalog.instanceMethods, hmethods, List.filter_map]
  rfl

end Renames

end Program

/-! ### Catalogs -/

namespace Catalog

variable {ρ : NodeId → NodeId}

theorem pick_rename {preferred : MethodDecl → Bool}
    (hpreferred : ∀ m : MethodDecl, preferred (m.rename ρ) = preferred m)
    (methods : List (NodeId × MethodDecl)) :
    pick preferred (methods.map fun x => (ρ x.1, x.2.rename ρ)) =
      (pick preferred methods).map ρ := by
  have hfind : (methods.map fun x => (ρ x.1, x.2.rename ρ)).find? (fun m => preferred m.2) =
      (methods.find? fun m => preferred m.2).map fun x => (ρ x.1, x.2.rename ρ) := by
    rw [List.find?_map]
    simp only [Function.comp_def, hpreferred]
  simp only [pick, hfind, List.head?_map]
  cases methods.find? fun m => preferred m.2 with
  | some m => rfl
  | none => cases methods.head? <;> rfl

end Catalog

namespace Program.Renames

variable {p q : Program} {ρ : NodeId → NodeId} {S : Set NodeId}
  (renames : p.Renames q ρ S) {id : NodeId}
  (hid : id ∈ S) {c : ClassDecl} (hc : p.class? id = some c)
include renames hid hc

/-- A catalog says the same under other ids. -/
theorem catalog_eq {types types' : Hierarchy}
    (htypes : ∀ t, types'.isSequence t = types.isSequence t) :
    catalog q types' (ρ id) = (catalog p types id).map (List.map (FieldDesc.rename ρ)) := by
  refine Catalog.catalog_rename ?_ ?_ htypes hc (renames.class?_eq hid hc) rfl
    (renames.fieldsOf_eq hid hc)
  · intro f
    rw [Catalog.getter?, renames.instanceMethods_eq hid hc]
    exact Catalog.pick_rename (fun _ => rfl) _
  · intro f
    rw [Catalog.setter?, renames.instanceMethods_eq hid hc]
    exact Catalog.pick_rename (fun _ => rfl) _

end Program.Renames

end FieldAccess
