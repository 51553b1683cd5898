import FieldAccess.Proofs.Interpreters

/-! The limit on nested calls. A failure cannot be caught inside a body, so a call that does not end
for want of depth has not met the limit anywhere, and more room makes no difference to it. A machine
that counts the active calls in its state, up before a body and down after it, has the same count
after a call as before, however the call ends. -/
namespace FieldAccess

namespace Action

/-! ### More room -/

/-- The first action is the second, cut short where the depth runs out. -/
def CutShort {α : Type} (x y : Action α) : Prop :=
  ∀ h, (∃ h', x.run h = .error (.callDepthExceeded maxCallDepth) h') ∨ y.run h = x.run h

theorem cutShort_refl {α : Type} (x : Action α) : CutShort x x := fun _ => Or.inr rfl

theorem cutShort_throw {α : Type} (x : Action α) :
    CutShort (throw (.callDepthExceeded maxCallDepth)) x := fun h => Or.inl ⟨h, rfl⟩

theorem CutShort.trans {α : Type} {x y z : Action α} (hxy : CutShort x y) (hyz : CutShort y z) :
    CutShort x z := by
  intro h
  rcases hxy h with cut | hy
  · exact Or.inl cut
  · rcases hyz h with ⟨h', cut⟩ | hz
    · exact Or.inl ⟨h', hy.symm.trans cut⟩
    · exact Or.inr (hz.trans hy)

theorem CutShort.bind {α β : Type} {x y : Action α} {f g : α → Action β} (hx : CutShort x y)
    (hf : ∀ a, CutShort (f a) (g a)) : CutShort (x >>= f) (y >>= g) := by
  intro h
  rcases hx h with ⟨h', cut⟩ | hy
  · exact Or.inl ⟨h', bind_of_error cut f⟩
  · cases hr : x.run h with
    | error e h' =>
      right
      rw [bind_of_error hr, bind_of_error (hy.trans hr)]
    | ok a h' =>
      rw [bind_of_ok hr, bind_of_ok (hy.trans hr)]
      exact hf a h'

/-- A body is cut short where one of its calls is. -/
theorem cutShort_runBody {call call' : Caller}
    (hcall : ∀ method receiver args,
      CutShort (call method receiver args) (call' method receiver args))
    (ctx : Context) (body : Block) (frame : Frame) :
    CutShort (runBody ctx body frame call) (runBody ctx body frame call') := by
  have related : (Interpreter.ofHeap call').Related CutShort call :=
    ⟨fun a => cutShort_refl _, cutShort_refl, CutShort.bind, hcall⟩
  have hblock := related.execBlock ctx body frame
  exact hblock.bind fun flow => cutShort_refl _

theorem cutShort_succ (ctx : Context) (room : Nat) (method : NodeId) (receiver : Option Value)
    (args : List Value) :
    CutShort (invokeWithin ctx room method receiver args)
      (invokeWithin ctx (room + 1) method receiver args) := by
  induction room generalizing method receiver args with
  | zero =>
    rw [invokeWithin_eq, invokeWithin_eq]
    exact (cutShort_refl _).bind fun entered => cutShort_throw _
  | succ room ih =>
    rw [invokeWithin_eq, invokeWithin_eq]
    exact (cutShort_refl _).bind fun entered => cutShort_runBody ih ctx entered.2 entered.1

theorem cutShort_of_le (ctx : Context) {room room' : Nat} (hroom : room ≤ room') (method : NodeId)
    (receiver : Option Value) (args : List Value) :
    CutShort (invokeWithin ctx room method receiver args)
      (invokeWithin ctx room' method receiver args) := by
  induction hroom with
  | refl => exact cutShort_refl _
  | step _ ih => exact ih.trans (cutShort_succ ctx _ method receiver args)

/-- A call made when more calls are active is the same call, cut short. -/
theorem cutShort_invokeAt (ctx : Context) {depth less : Nat} (hless : less ≤ depth)
    (method : NodeId) (receiver : Option Value) (args : List Value) :
    CutShort (invokeAt ctx depth method receiver args) (invokeAt ctx less method receiver args) :=
  cutShort_of_le ctx (by omega) method receiver args

end Action

/-! ### Counting calls -/

/-- The state of an evaluation that counts its calls. -/
structure Machine where
  heap : Heap
  /-- Calls that are active. -/
  depth : Nat
  /-- For each body that was started, how many calls were active then, the last one first. -/
  started : List Nat

/-- The end of an action, on a machine with the given count and record. -/
def Machine.result {α : Type} (depth : Nat) (started : List Nat) :
    EStateM.Result EvalError Heap α → EStateM.Result EvalError Machine α
  | .ok a h => .ok a ⟨h, depth, started⟩
  | .error e h => .error e ⟨h, depth, started⟩

abbrev Counted := EStateM EvalError Machine

namespace Counted

abbrev Caller := NodeId → Option Value → List Value → Counted Value

/-- A step on the heap, which does not touch the count. -/
def step {α : Type} (x : Action α) : Counted α :=
  fun s => Machine.result s.depth s.started (x.run s.heap)

/-- A body under one more call. The count goes up before it and down after it, also after a
failure. -/
def nested {α : Type} (x : Counted α) : Counted α := fun s =>
  match x.run ⟨s.heap, s.depth + 1, (s.depth + 1) :: s.started⟩ with
  | .ok a t => .ok a ⟨t.heap, t.depth - 1, t.started⟩
  | .error e t => .error e ⟨t.heap, t.depth - 1, t.started⟩

/-- Calls a method, when `inner` makes the calls of its body. -/
def call (ctx : Context) (inner : Caller) : Caller := fun method receiver args => do
  let entered ← step (Action.enter ctx method receiver args)
  let s ← get
  if Action.maxCallDepth ≤ s.depth then throw (.callDepthExceeded Action.maxCallDepth)
  else do
    let flow ← nested ((Interpreter.mk step inner).execBlock ctx entered.2 entered.1)
    return Action.Flow.result flow

/-- The recursion of calls, written out for so many levels; below them anything may stand. -/
def invoke (ctx : Context) (below : Caller) : (levels : Nat) → Caller
  | 0 => below
  | levels + 1 => call ctx (invoke ctx below levels)

/-- At a count, the second does what the first does, leaves the count as it was, and starts bodies
only below the limit. -/
def Tracks {α : Type} (depth : Nat) (x : Action α) (y : Counted α) : Prop :=
  ∀ (h : Heap) (started : List Nat), ∃ new : List Nat,
  (∀ n ∈ new, depth < n ∧ n ≤ Action.maxCallDepth) ∧
    y.run ⟨h, depth, started⟩ = Machine.result depth (new ++ started) (x.run h)

theorem tracks_step {α : Type} (depth : Nat) (x : Action α) : Tracks depth x (step x) :=
  fun _ _ => ⟨[], nofun, rfl⟩

theorem tracks_pure {α : Type} (depth : Nat) (a : α) : Tracks depth (pure a) (pure a) :=
  fun _ _ => ⟨[], nofun, rfl⟩

theorem Tracks.bind {α β : Type} {depth : Nat} {x : Action α} {y : Counted α} {f : α → Action β}
    {g : α → Counted β} (hx : Tracks depth x y) (hf : ∀ a, Tracks depth (f a) (g a)) :
    Tracks depth (x >>= f) (y >>= g) := by
  intro h started
  obtain ⟨new, hnew, hy⟩ := hx h started
  cases hr : x.run h with
  | error e h' =>
    refine ⟨new, hnew, ?_⟩
    rw [Action.bind_of_error hr, EStateM.run_bind, hy, hr]
    rfl
  | ok a h' =>
    obtain ⟨later, hlater, hg⟩ := hf a h' (new ++ started)
    refine ⟨later ++ new, List.forall_mem_append.mpr ⟨hlater, hnew⟩, ?_⟩
    rw [Action.bind_of_ok hr, EStateM.run_bind, hy, hr, List.append_assoc]
    exact hg

/-- What runs below one more call keeps the count of the call around it. -/
theorem Tracks.nested {α : Type} {depth : Nat} {x : Action α} {y : Counted α}
    (hroom : depth < Action.maxCallDepth) (hx : Tracks (depth + 1) x y) :
    Tracks depth x (Counted.nested y) := by
  intro h started
  obtain ⟨new, hnew, hy⟩ := hx h ((depth + 1) :: started)
  refine ⟨new ++ [depth + 1], ?_, ?_⟩
  · intro n hn
    rcases List.mem_append.mp hn with hn | hn
    · have := hnew n hn
      omega
    · rw [List.mem_singleton.mp hn]
      omega
  · have hrun : (Counted.nested y).run ⟨h, depth, started⟩ =
        match y.run ⟨h, depth + 1, (depth + 1) :: started⟩ with
        | .ok a t => .ok a ⟨t.heap, t.depth - 1, t.started⟩
        | .error e t => .error e ⟨t.heap, t.depth - 1, t.started⟩ := rfl
    rw [hrun, hy, List.append_assoc]
    cases x.run h <;> rfl

/-- Refusal at the limit. -/
theorem tracks_call_full (ctx : Context) (inner : Caller) (method : NodeId)
    (receiver : Option Value) (args : List Value) :
    Tracks Action.maxCallDepth (Action.invokeWithin ctx 0 method receiver args)
      (call ctx inner method receiver args) := by
  rw [Action.invokeWithin_eq]
  exact (tracks_step _ _).bind fun entered h started => ⟨[], nofun, rfl⟩

/-- A call below the limit tracks, if the calls of its body do one level deeper. -/
theorem tracks_call {depth : Nat} (hroom : depth < Action.maxCallDepth) {ctx : Context}
    {inner : Caller} {room : Nat}
    (hinner : ∀ method receiver args,
      Tracks (depth + 1) (Action.invokeWithin ctx room method receiver args)
      (inner method receiver args))
    (method : NodeId) (receiver : Option Value) (args : List Value) :
    Tracks depth (Action.invokeWithin ctx (room + 1) method receiver args)
      (call ctx inner method receiver args) := by
  have related :
      (Interpreter.mk step inner).Related (Tracks (depth + 1)) (Action.invokeWithin ctx room) :=
    ⟨tracks_pure _, tracks_step _, Tracks.bind, hinner⟩
  rw [Action.invokeWithin_eq]
  refine (tracks_step _ _).bind fun entered => ?_
  have hbody := ((related.execBlock ctx entered.2 entered.1).nested hroom).bind
    fun flow => tracks_pure depth (Action.Flow.result flow)
  intro h started
  obtain ⟨new, hnew, hrun⟩ := hbody h started
  refine ⟨new, hnew, ?_⟩
  rw [EStateM.run_bind]
  simp only [EStateM.run_get, if_neg (Nat.not_le.mpr hroom)]
  exact hrun

/-- The count stops the recursion before it gets below the levels that are written out. -/
theorem tracks_invoke (ctx : Context) (below : Caller) {depth levels : Nat}
    (hdepth : depth ≤ Action.maxCallDepth) (hlevels : Action.maxCallDepth < depth + levels)
    (method : NodeId) (receiver : Option Value) (args : List Value) :
    Tracks depth (Action.invokeAt ctx depth method receiver args)
      (invoke ctx below levels method receiver args) := by
  induction levels generalizing depth method receiver args with
  | zero => omega
  | succ levels ih =>
    rcases Nat.eq_or_lt_of_le hdepth with rfl | hroom
    · exact tracks_call_full ctx _ method receiver args
    · have hsucc : Action.maxCallDepth - depth = (Action.maxCallDepth - (depth + 1)) + 1 := by omega
      rw [Action.invokeAt, hsucc]
      exact tracks_call hroom (fun method receiver args => ih hroom (by omega) method receiver args)
        method receiver args

end Counted

namespace Action

/-- A call at some depth leaves the count of active calls as it was, however it ends, and starts no
body under more calls than the limit. Unless it ends for want of depth, it would end alike, on the
same heap, at any smaller depth; and what ends for want of depth there does so here. -/
theorem depth_is_restored_and_neutral (ctx : Context) (method : NodeId) (receiver : Option Value)
    (args : List Value) (h : Heap) {depth : Nat} (hdepth : depth ≤ maxCallDepth) :
    (∀ (below : Counted.Caller) (levels : Nat) (started : List Nat), maxCallDepth < depth + levels →
      ∃ new : List Nat, (∀ n ∈ new, depth < n ∧ n ≤ maxCallDepth) ∧
        (Counted.invoke ctx below levels method receiver args).run ⟨h, depth, started⟩ =
          Machine.result depth (new ++ started) ((invokeAt ctx depth method receiver args).run h)) ∧
    ∀ less ≤ depth,
      ((∀ h', (invokeAt ctx depth method receiver args).run h ≠
        .error (.callDepthExceeded maxCallDepth) h') →
        (invokeAt ctx less method receiver args).run h =
          (invokeAt ctx depth method receiver args).run h) ∧
      ∀ h', (invokeAt ctx less method receiver args).run h =
        .error (.callDepthExceeded maxCallDepth) h' →
        ∃ h'', (invokeAt ctx depth method receiver args).run h =
          .error (.callDepthExceeded maxCallDepth) h'' := by
  refine ⟨?_, ?_⟩
  · intro below levels started hlevels
    exact Counted.tracks_invoke ctx below hdepth hlevels method receiver args h started
  · intro less hless
    rcases cutShort_invokeAt ctx hless method receiver args h with ⟨h', cut⟩ | same
    · exact ⟨fun uncut => absurd cut (uncut h'), fun _ _ => ⟨h', cut⟩⟩
    · exact ⟨fun _ => same, fun h' cut => ⟨h', same.symm.trans cut⟩⟩

end Action

/-- `walk` calls itself once, with what `nothing` gives. -/
def walkProgram : Program where
  nodes := [
    ⟨none, .cls (ClassDecl.mk "Walk" [] [] false .user [1, 2])⟩,
    ⟨some 0, .method (MethodDecl.mk "walk" true [⟨"x", .any⟩] .void
      (some [.branch (.notNull (.var "x"))
        [.expr (.call none (.member 1) [.call none (.member 2) []])] []])
      [])⟩,
    ⟨some 0, .method (MethodDecl.mk "nothing" true [] .any (some []) [])⟩]
  roots := [0]

namespace Action

/-- Two calls below the one that is made fit in at depth 254 and below, and do not at 255. -/
theorem walk_within_limits :
    let ctx := Context.ofProgram walkProgram
    (∃ new : List Nat, (∀ n ∈ new, 254 < n ∧ n ≤ maxCallDepth) ∧
      (Counted.invoke ctx (fun _ _ _ => throw (.notAMethod 0)) 3 1 none [.str "on"]).run
        ⟨.empty, 254, []⟩ = .ok .null ⟨.empty, 254, new⟩) ∧
    (invokeAt ctx 0 1 none [.str "on"]).run .empty = .ok .null .empty ∧
    ∃ h', (invokeAt ctx 256 1 none [.str "on"]).run .empty =
      .error (.callDepthExceeded maxCallDepth) h' := by
  intro ctx
  have fits : (invokeAt ctx 254 1 none [.str "on"]).run .empty = .ok .null .empty := rfl
  have cut : (invokeAt ctx 255 1 none [.str "on"]).run .empty =
      .error (.callDepthExceeded maxCallDepth) .empty := rfl
  obtain ⟨counted, neutral⟩ :=
    depth_is_restored_and_neutral ctx 1 none [.str "on"] .empty (show 254 ≤ maxCallDepth by decide)
  obtain ⟨_, refused⟩ :=
    depth_is_restored_and_neutral ctx 1 none [.str "on"] .empty (show 256 ≤ maxCallDepth by decide)
  refine ⟨?_, ?_, (refused 255 (by decide)).2 _ cut⟩
  · obtain ⟨new, hnew, hrun⟩ := counted (fun _ _ _ => throw (.notAMethod 0)) 3 [] (by decide)
    rw [fits, List.append_nil] at hrun
    exact ⟨new, hnew, hrun⟩
  · have uncut : ∀ h', (invokeAt ctx 254 1 none [.str "on"]).run .empty ≠
        .error (.callDepthExceeded maxCallDepth) h' := by
      intro h' hcut
      rw [fits] at hcut
      cases hcut
    exact ((neutral 0 (by decide)).1 uncut).trans fits

end Action

end FieldAccess
