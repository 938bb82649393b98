import Mathlib.Data.List.Forall2
import TreeProver.Error

/-!
# Steps that may fail, one after the other

What is known of every single step that may fail is known of two of them one after the other, and of
a traversal that takes one for every element of a list: it goes through exactly when all of them do,
and then it gives their results in order; and it can fail only in the ways in which a step can.
-/

namespace TreeProver

variable {ε α β : Type}

/-- Two steps that can only fail in a certain way can only fail in that way one after the other. -/
theorem Except.bind_error {P : ε → Prop} {r : Except ε α} {f : α → Except ε β}
    (hr : ∀ e, r = .error e → P e) (hf : ∀ a e, f a = .error e → P e) :
    ∀ e, (r >>= f) = .error e → P e := by
  intro e h
  cases r with
  | error e' => exact hr e (congrArg Except.error (Except.error.inj h))
  | ok a => exact hf a e h

/-- A traversal goes through exactly when every step does, and gives the results in order. -/
theorem Except.mapM_ok_iff {f : α → Except ε β} {xs : List α} {ys : List β} :
    xs.mapM f = .ok ys ↔ List.Forall₂ (fun x y ↦ f x = .ok y) xs ys := by
  induction xs generalizing ys with
  | nil =>
    constructor
    · intro h
      obtain rfl := Except.ok.inj h
      exact .nil
    · intro h
      cases h
      rfl
  | cons x xs ih =>
    rw [List.mapM_cons, Except.bind_eq_ok_iff, List.forall₂_cons_left_iff]
    constructor
    · rintro ⟨y, hy, h⟩
      obtain ⟨ys, hys, h⟩ := Except.bind_eq_ok_iff.1 h
      exact ⟨y, ys, hy, ih.1 hys, (Except.ok.inj h).symm⟩
    · rintro ⟨y, ys, hy, hys, rfl⟩
      exact ⟨y, hy, Except.bind_eq_ok_iff.2 ⟨ys, ih.2 hys, rfl⟩⟩

/-- A traversal gives some result exactly when every step does. -/
theorem Except.exists_mapM_ok_iff {f : α → Except ε β} {xs : List α} :
    (∃ ys, xs.mapM f = .ok ys) ↔ ∀ x ∈ xs, ∃ y, f x = .ok y := by
  simp only [Except.mapM_ok_iff]
  induction xs with
  | nil => exact iff_of_true ⟨[], .nil⟩ nofun
  | cons x xs ih =>
    rw [List.forall_mem_cons, ← ih]
    constructor
    · rintro ⟨ys, h⟩
      obtain ⟨y, ys, hy, hys, -⟩ := List.forall₂_cons_left_iff.1 h
      exact ⟨⟨y, hy⟩, ys, hys⟩
    · rintro ⟨⟨y, hy⟩, ys, hys⟩
      exact ⟨y :: ys, .cons hy hys⟩

/-- A traversal whose steps can only fail in a certain way can only fail in that way. -/
theorem Except.mapM_error {P : ε → Prop} {f : α → Except ε β} {xs : List α}
    (h : ∀ x e, f x = .error e → P e) : ∀ e, xs.mapM f = .error e → P e := by
  induction xs with
  | nil => exact nofun
  | cons x xs ih =>
    rw [List.mapM_cons]
    exact Except.bind_error (h x) fun y ↦ Except.bind_error ih fun ys e ↦ nofun

end TreeProver
