import Mathlib.Algebra.Group.Nat.Defs
import Mathlib.Tactic.Common

/-!
# Computations that may halt

`Ends x s Q E`: the computation `x`, started in `s`, returns in `Q` or halts in `E`. A computation always
ends one way or the other, so `Ends x s Q fun _ _ => False` says that it returns.
-/
namespace Exec

variable {ε σ α β : Type}

structure Ends (x : EStateM ε σ α) (s : σ) (Q : α → σ → Prop) (E : ε → σ → Prop) : Prop where
  out : match x.run s with
    | .ok a t => Q a t
    | .error e t => E e t

variable {s t : σ} {Q Q' : α → σ → Prop} {E E' : ε → σ → Prop}

theorem Ends.of_ok {x : EStateM ε σ α} {a : α} (h : Ends x s Q E) (hx : x.run s = .ok a t) : Q a t := by
  have hout := h.out
  rwa [hx] at hout

theorem Ends.of_error {x : EStateM ε σ α} {e : ε} (h : Ends x s Q E) (hx : x.run s = .error e t) :
    E e t := by
  have hout := h.out
  rwa [hx] at hout

theorem ends_iff_of_ok {x : EStateM ε σ α} {a : α} (hx : x.run s = .ok a t) : Ends x s Q E ↔ Q a t :=
  ⟨fun h => h.of_ok hx, fun h => ⟨by rwa [hx]⟩⟩

theorem ends_iff_of_error {x : EStateM ε σ α} {e : ε} (hx : x.run s = .error e t) :
    Ends x s Q E ↔ E e t :=
  ⟨fun h => h.of_error hx, fun h => ⟨by rwa [hx]⟩⟩

theorem Ends.run_eq {x : EStateM ε σ α} {a : α} (h : Ends x s (fun b u => b = a ∧ u = t) fun _ _ => False) :
    x.run s = .ok a t := by
  cases hx : x.run s with
  | ok b u =>
      obtain ⟨rfl, rfl⟩ := h.of_ok hx
      rfl
  | error e u => exact (h.of_error hx).elim

/-- A run that cannot halt returns. -/
theorem Ends.returns {x : EStateM ε σ α} (h : Ends x s Q fun _ _ => False) : ∃ a t, x.run s = .ok a t ∧ Q a t := by
  cases hx : x.run s with
  | ok a t => exact ⟨a, t, rfl, h.of_ok hx⟩
  | error e t => exact (h.of_error hx).elim

theorem Ends.mono {x : EStateM ε σ α} (h : Ends x s Q E) (hQ : ∀ a t, Q a t → Q' a t)
    (hE : ∀ e t, E e t → E' e t) : Ends x s Q' E' := by
  cases hx : x.run s with
  | ok a t => exact (ends_iff_of_ok hx).mpr (hQ a t (h.of_ok hx))
  | error e t => exact (ends_iff_of_error hx).mpr (hE e t (h.of_error hx))

theorem Ends.and {x : EStateM ε σ α} (h : Ends x s Q E) (h' : Ends x s Q' E') :
    Ends x s (fun a t => Q a t ∧ Q' a t) fun e t => E e t ∧ E' e t := by
  cases hx : x.run s with
  | ok a t => exact (ends_iff_of_ok hx).mpr ⟨h.of_ok hx, h'.of_ok hx⟩
  | error e t => exact (ends_iff_of_error hx).mpr ⟨h.of_error hx, h'.of_error hx⟩

/-- The run itself is a fact about the result. -/
theorem Ends.ran {x : EStateM ε σ α} (h : Ends x s Q E) : Ends x s (fun a t => Q a t ∧ x.run s = .ok a t) E := by
  cases hx : x.run s with
  | ok a t => exact (ends_iff_of_ok hx).mpr ⟨h.of_ok hx, rfl⟩
  | error e t => exact (ends_iff_of_error hx).mpr (h.of_error hx)

theorem ends_true {x : EStateM ε σ α} : Ends x s (fun _ _ => True) fun _ _ => True := by
  cases hx : x.run s with
  | ok a t => exact (ends_iff_of_ok hx).mpr trivial
  | error e t => exact (ends_iff_of_error hx).mpr trivial

@[simp] theorem ends_pure {a : α} : Ends (pure a) s Q E ↔ Q a s := ends_iff_of_ok rfl

@[simp] theorem ends_throw {e : ε} : Ends (throw e : EStateM ε σ α) s Q E ↔ E e s :=
  ends_iff_of_error rfl

@[simp] theorem ends_get {Q : σ → σ → Prop} : Ends (get : EStateM ε σ σ) s Q E ↔ Q s s :=
  ends_iff_of_ok rfl

@[simp] theorem ends_modify {f : σ → σ} {Q : Unit → σ → Prop} :
    Ends (modify f : EStateM ε σ PUnit) s Q E ↔ Q () (f s) := ends_iff_of_ok rfl

theorem run_bind_of_ok {x : EStateM ε σ α} {f : α → EStateM ε σ β} {a : α} (hx : x.run s = .ok a t) :
    (x >>= f).run s = (f a).run t := by
  simp only [bind, EStateM.bind, EStateM.run] at hx ⊢
  rw [hx]

theorem run_bind_of_error {x : EStateM ε σ α} {f : α → EStateM ε σ β} {e : ε}
    (hx : x.run s = .error e t) : (x >>= f).run s = .error e t := by
  simp only [bind, EStateM.bind, EStateM.run] at hx ⊢
  rw [hx]

@[simp] theorem ends_bind {x : EStateM ε σ α} {f : α → EStateM ε σ β} {Q : β → σ → Prop} :
    Ends (x >>= f) s Q E ↔ Ends x s (fun a t => Ends (f a) t Q E) E := by
  cases hx : x.run s with
  | ok a t =>
      rw [ends_iff_of_ok hx]
      exact ⟨fun h => ⟨run_bind_of_ok hx ▸ h.out⟩, fun h => ⟨(run_bind_of_ok hx).symm ▸ h.out⟩⟩
  | error e t => rw [ends_iff_of_error hx, ends_iff_of_error (run_bind_of_error hx)]

/-- What the last computation does alone. -/
theorem ends_then {x : EStateM ε σ α} {f : α → EStateM ε σ β} {Q : β → σ → Prop} (h : ∀ a t, Ends (f a) t Q fun _ _ => True) :
    Ends (x >>= f) s Q fun _ _ => True :=
  ends_bind.mpr (ends_true.mono (fun a t _ => h a t) fun _ _ _ => trivial)

@[simp] theorem ends_map {x : EStateM ε σ α} {f : α → β} {Q : β → σ → Prop} :
    Ends (f <$> x) s Q E ↔ Ends x s (fun a t => Q (f a) t) E := by
  rw [map_eq_pure_bind, ends_bind]
  simp only [ends_pure]

/-- When the computation returns, `P` holds if it did before. -/
structure Keeps (P : σ → Prop) (x : EStateM ε σ α) : Prop where
  run : ∀ s, P s → Ends x s (fun _ t => P t) fun _ _ => True

section Keeps
variable {P : σ → Prop}

theorem keeps_pure (a : α) : Keeps P (pure a : EStateM ε σ α) := ⟨fun _ h => ends_pure.mpr h⟩

theorem keeps_throw (e : ε) : Keeps P (throw e : EStateM ε σ α) := ⟨fun _ _ => ends_throw.mpr trivial⟩

theorem keeps_get : Keeps P (get : EStateM ε σ σ) := ⟨fun _ h => ends_get.mpr h⟩

theorem keeps_modify {f : σ → σ} (hf : ∀ s, P s → P (f s)) : Keeps P (modify f : EStateM ε σ PUnit) :=
  ⟨fun s h => ends_modify.mpr (hf s h)⟩

theorem keeps_bind {x : EStateM ε σ α} {f : α → EStateM ε σ β} (hx : Keeps P x) (hf : ∀ a, Keeps P (f a)) :
    Keeps P (x >>= f) :=
  ⟨fun s h => ends_bind.mpr ((hx.run s h).mono (fun a t ht => (hf a).run t ht) fun _ _ he => he)⟩

theorem keeps_ite {c : Prop} [Decidable c] {x y : EStateM ε σ α} (hx : Keeps P x) (hy : Keeps P y) :
    Keeps P (if c then x else y) := by
  split
  · exact hx
  · exact hy

end Keeps

end Exec
