/-! Computations that may fail. A success of a whole comes from the successes of its parts. -/
namespace FieldAccess

/-- The computation gives a result. -/
def Succeeds {ε α : Type} (x : Except ε α) : Prop := ∃ a, x = .ok a

namespace Succeeds

variable {ε α β : Type}

theorem pure (a : α) : Succeeds (pure a : Except ε α) := ⟨a, rfl⟩

theorem bind {x : Except ε α} {f : α → Except ε β} (hx : Succeeds x)
    (hf : ∀ a, x = .ok a → Succeeds (f a)) : Succeeds (x >>= f) := by
  obtain ⟨a, rfl⟩ := hx
  exact hf a rfl

theorem mapM {f : α → Except ε β} {l : List α} (h : ∀ a ∈ l, Succeeds (f a)) :
    Succeeds (l.mapM f) := by
  induction l with
  | nil => exact .pure []
  | cons a l ih =>
    rw [List.mapM_cons]
    exact (h a List.mem_cons_self).bind fun b _ =>
      (ih fun a ha => h a (List.mem_cons_of_mem _ ha)).bind fun bs _ => .pure _

end Succeeds

section
variable {ε α β : Type}

theorem exists_of_bind_eq_ok {x : Except ε α} {b : β} {f : α → Except ε β} (h : x >>= f = .ok b) :
    ∃ a, x = .ok a ∧ f a = .ok b := by
  cases x with
  | error e => cases h
  | ok a => exact ⟨a, rfl, h⟩

theorem exists_of_map_eq_ok {x : Except ε α} {b : β} {f : α → β} (h : f <$> x = .ok b) :
    ∃ a, x = .ok a ∧ f a = b := by
  cases x with
  | error e => cases h
  | ok a => exact ⟨a, rfl, Except.ok.inj h⟩

theorem exists_of_mapM_eq_ok {f : α → Except ε β} {l : List α} {r : List β} (h : l.mapM f = .ok r)
    {a : α} (ha : a ∈ l) : ∃ b ∈ r, f a = .ok b := by
  induction l generalizing r with
  | nil => cases ha
  | cons a' l ih =>
    rw [List.mapM_cons] at h
    obtain ⟨b, hb, h⟩ := exists_of_bind_eq_ok h
    obtain ⟨bs, hbs, h⟩ := exists_of_bind_eq_ok h
    cases h
    rcases List.mem_cons.mp ha with rfl | ha
    · exact ⟨b, List.mem_cons_self, hb⟩
    · obtain ⟨b', hb', hf⟩ := ih hbs ha
      exact ⟨b', List.mem_cons_of_mem _ hb', hf⟩

/-- A list is computed element by element. -/
theorem mapM_eq_ok_iff {f : α → Except ε β} {l : List α} {r : List β} :
    l.mapM f = .ok r ↔
      r.length = l.length ∧ ∀ (i : Nat) (a : α) (b : β), l[i]? = some a →
      r[i]? = some b → f a = .ok b := by
  induction l generalizing r with
  | nil =>
    constructor
    · intro hr
      cases hr
      exact ⟨rfl, by simp⟩
    · rintro ⟨hlen, _⟩
      rw [List.length_eq_zero_iff.mp hlen]
      rfl
  | cons a l ih =>
    constructor
    · intro hr
      rw [List.mapM_cons] at hr
      obtain ⟨b, hb, hr⟩ := exists_of_bind_eq_ok hr
      obtain ⟨bs, hbs, hr⟩ := exists_of_bind_eq_ok hr
      cases hr
      obtain ⟨hlen, hall⟩ := ih.mp hbs
      refine ⟨congrArg Nat.succ hlen, ?_⟩
      intro i a' b' ha' hb'
      cases i with
      | zero =>
        cases ha'
        cases hb'
        exact hb
      | succ i => exact hall i a' b' ha' hb'
    · rintro ⟨hlen, hall⟩
      cases r with
      | nil => cases hlen
      | cons b bs =>
        have hb := hall 0 a b rfl rfl
        have hbs := ih.mpr ⟨Nat.succ.inj hlen, fun i => hall (i + 1)⟩
        rw [List.mapM_cons, hb, hbs]
        rfl

end

/-! ### What is computed, if anything -/

instance attachExcept {ε : Type} : MonadAttach (Except ε) where
  CanReturn x a := x = .ok a
  attach
    | .ok a => .ok ⟨a, rfl⟩
    | .error e => .error e

instance lawfulAttachExcept {ε : Type} : LawfulMonadAttach (Except ε) where
  map_attach {_ x} := by cases x <;> rfl
  canReturn_map_imp {_ _ x _} h := by
    cases x with
    | error e => cases h
    | ok a =>
      cases h
      exact a.property

/-- What is computed, if anything, has the property. -/
def Gives {m : Type → Type} [MonadAttach m] {α : Type} (x : m α) (P : α → Prop) : Prop :=
  ∀ a, MonadAttach.CanReturn x a → P a

namespace Gives

variable {m : Type → Type} [Monad m] [LawfulMonad m] [MonadAttach m] [LawfulMonadAttach m]
  {α β : Type} {P : α → Prop} {Q : β → Prop}

omit [Monad m] [LawfulMonad m] [LawfulMonadAttach m] in
theorem any (x : m α) : Gives x fun _ => True := fun _ _ => trivial

theorem pure {a : α} (h : P a) : Gives (pure a : m α) P := by
  intro b hb
  rw [← LawfulMonadAttach.eq_of_canReturn_pure hb]
  exact h

theorem bind {x : m α} {f : α → m β} (hx : Gives x P) (hf : ∀ a, P a → Gives (f a) Q) :
    Gives (x >>= f) Q := by
  intro b hb
  obtain ⟨a, ha, hb⟩ := LawfulMonadAttach.canReturn_bind_imp' hb
  exact hf a (hx a ha) b hb

theorem mapM {f : α → m β} {l : List α} (h : ∀ a ∈ l, Gives (f a) Q) :
    Gives (l.mapM f) (∀ b ∈ ·, Q b) := by
  induction l with
  | nil => exact .pure fun _ hb => absurd hb List.not_mem_nil
  | cons a l ih =>
    rw [List.mapM_cons]
    refine (h a List.mem_cons_self).bind fun b hb => ?_
    refine (ih fun a ha => h a (List.mem_cons_of_mem _ ha)).bind fun bs hbs => ?_
    exact .pure (List.forall_mem_cons.mpr ⟨hb, hbs⟩)

end Gives

end FieldAccess
