import TreeProver.Proofs.Layout.Path
import TreeProver.Proofs.Tree.Path

/-!
# How a root fails

Hashing needs the values of what it hashes, except during key generation, and it needs nothing else.
So once the number of leaves is a power of two and there are enough leaves, the root over them fails
only for a value that is missing. The two failures that name a number of leaves are decided before
anything is laid out.
-/

namespace TreeProver.Circuit

open Synth

variable {α β : Type} {s : Layout}

namespace Synth

/-- On the layout the action fails only for a value that is missing, and not during key generation.
It does not change what the layout is made for, and what it gives satisfies `P`. -/
structure NeedsValues (P : α → Prop) (act : Synth α) (s : Layout) : Prop where
  mode : (act.run s).2.mode = s.mode
  ok : ∀ a, (act.run s).1 = .ok a → P a
  error : ∀ e, (act.run s).1 = .error e → s.mode ≠ .setup ∧ e = .synthesis .assignmentMissing

/-- Doing nothing needs no values. -/
theorem NeedsValues.pure {P : α → Prop} {a : α} (h : P a) : NeedsValues P (Pure.pure a) s where
  mode := rfl
  ok := fun _ ha ↦ Except.ok.inj ha ▸ h
  error := nofun

/-- A computation that succeeds needs no values. -/
theorem NeedsValues.ofExcept {P : α → Prop} {r : Except Error α} {a : α} (hr : r = .ok a)
    (h : P a) :
    NeedsValues P (liftM r : Synth α) s := by
  subst hr
  exact .pure h

/-- The failure for a value that is missing may happen where there should be values. -/
theorem NeedsValues.missing {P : α → Prop} (h : s.mode ≠ .setup) :
    NeedsValues P (Synth.missing : Synth α) s where
  mode := rfl
  ok := nofun
  error := by
    rintro _ ⟨⟩
    exact ⟨h, rfl⟩

/-- What an action needs is seen from what it does. -/
theorem NeedsValues.of_run {P : α → Prop} {act act' : Synth α} {t : Layout}
    (h : NeedsValues P act' t) (hr : act.run s = act'.run t) (hm : t.mode = s.mode) :
    NeedsValues P act s where
  mode := by rw [hr, h.mode, hm]
  ok := by rw [hr]; exact h.ok
  error := by rw [hr, ← hm]; exact h.error

/-- Reading the layout needs no values. -/
theorem NeedsValues.get {P : α → Prop} {f : Layout → Synth α} (h : NeedsValues P (f s) s) :
    NeedsValues P (MonadState.get >>= f) s := h.of_run (by rw [run_bind, run_get]) rfl

/-- A sequence needs the values that its parts need. -/
theorem NeedsValues.bind {P : α → Prop} {Q : β → Prop} {act : Synth α} {f : α → Synth β}
    (h : NeedsValues P act s) (hf : ∀ a t, P a → t.mode = s.mode → NeedsValues Q (f a) t) :
    NeedsValues Q (act >>= f) s := by
  obtain ⟨hmode, hok, herror⟩ := h
  rcases hr : act.run s with ⟨e | a, t⟩
  · rw [hr] at hmode herror
    have hrun : (act >>= f).run s = (.error e, t) := by rw [run_bind, hr]
    refine ⟨?_, ?_, ?_⟩
    · rw [hrun]
      exact hmode
    · rw [hrun]
      exact nofun
    · rw [hrun]
      rintro _ ⟨⟩
      exact herror e rfl
  · rw [hr] at hmode hok
    exact (hf a t (hok a rfl) hmode).of_run (by rw [run_bind, hr]) hmode

/-- An action for the elements of a list gives as many results. -/
theorem NeedsValues.mapM {f : α → Synth β} (hf : ∀ x t, NeedsValues (fun _ ↦ True) (f x) t)
    (xs : List α) : NeedsValues (fun ys ↦ ys.length = xs.length) (xs.mapM f) s := by
  induction xs generalizing s with
  | nil => exact .pure rfl
  | cons x xs ih =>
    rw [List.mapM_cons]
    refine (hf x s).bind fun y t _ _ ↦ ih.bind fun ys u hys _ ↦ .pure ?_
    rw [List.length_cons, List.length_cons, hys]

/-- Actions for the places of an octet need the values that one of them needs. -/
theorem NeedsValues.octet {f : α → Synth β} (hf : ∀ x t, NeedsValues (fun _ ↦ True) (f x) t)
    (o : Octet α) : NeedsValues (fun _ ↦ True) (o.mapM f) s :=
  (hf _ _).bind fun _ _ _ _ ↦ (hf _ _).bind fun _ _ _ _ ↦ (hf _ _).bind fun _ _ _ _ ↦
    (hf _ _).bind fun _ _ _ _ ↦ (hf _ _).bind fun _ _ _ _ ↦ (hf _ _).bind fun _ _ _ _ ↦
      (hf _ _).bind fun _ _ _ _ ↦ (hf _ _).bind fun _ _ _ _ ↦ .pure trivial

/-- Reserving a witness needs its value. -/
theorem newWitness_needsValues (value : Option Fr) :
    NeedsValues (fun _ ↦ True) (newWitness value) s := by
  obtain ⟨mode, inputs, witnesses, inputValues, witnessValues, gates⟩ := s
  refine ⟨?_, fun _ _ ↦ trivial, ?_⟩
  · cases mode <;> cases value <;> rfl
  · intro e he
    cases mode <;> cases value <;> cases he <;> exact ⟨nofun, rfl⟩

/-- Putting a gate on the layout needs no values. -/
theorem constrain_needsValues (g : Gate) : NeedsValues (fun _ ↦ True) (constrain g) s :=
  ⟨rfl, fun _ _ ↦ trivial, nofun⟩

/-- A digest needs the values of its message. -/
theorem sha256_needsValues (message : List Byte) :
    NeedsValues (fun _ ↦ True) (sha256 message) s := by
  have hbyte (v : Option UInt8) (t : Layout) : NeedsValues (fun _ ↦ True) (witnessByte v) t :=
    .octet (fun _ _ ↦ (newWitness_needsValues _).bind fun _ _ _ _ ↦ .pure trivial) _
  have hnew (d : Option Word) : NeedsValues (fun _ ↦ True) (do
      let bytes ← (Byte.optionalBytes Word.size (d.map Word.bytes)).mapM witnessByte
      constrain (.digest message bytes)
      liftM (Node.ofBytes bytes)) s := by
    refine (NeedsValues.mapM hbyte _).bind fun bytes t hb _ ↦ ?_
    exact (constrain_needsValues _).bind fun _ _ _ _ ↦
      .ofExcept (dif_pos (hb.trans (Byte.length_optionalBytes_word d))) trivial
  refine .get ?_
  dsimp only
  split
  · exact .pure trivial
  · split
    · next h => exact .missing h.1
    · exact hnew _

end Synth

namespace Node

/-- The parents of neighbouring nodes need the values of the nodes. -/
theorem parents_needsValues (layer : List Node) : NeedsValues (fun _ ↦ True) (parents layer) s := by
  induction layer using parents.induct generalizing s with
  | case1 a b rest ih =>
    exact (sha256_needsValues _).bind fun _ _ _ _ ↦ ih.bind fun _ _ _ _ ↦ .pure trivial
  | case2 layer hl =>
    rw [parents]
    · exact .pure trivial
    · exact hl

/-- A layer above nodes needs the values of the nodes. -/
theorem layerAbove_needsValues (levels : Nat) (layer : List Node) :
    NeedsValues (fun _ ↦ True) (layerAbove levels layer) s := by
  induction levels generalizing layer s with
  | zero => exact .pure trivial
  | succ levels ih => exact (parents_needsValues layer).bind fun _ _ _ _ ↦ ih _

variable {leaves : List Node} {count : Nat}

/-- There is no root over a number of leaves that is no power of two. -/
theorem run_root_of_not (h : ¬ Tree.isPowerOfTwo count = true) :
    (root leaves count).run s = (.error (.leafCountNotPowerOfTwo count), s) := by
  rw [root, if_pos h]
  rfl

/-- There is no root over more leaves than there are. -/
theorem run_root_of_lt (h : Tree.isPowerOfTwo count = true) (hlt : leaves.length < count) :
    (root leaves count).run s = (.error (.notEnoughLeaves count leaves.length), s) := by
  rw [root, if_neg (not_not.2 h), if_pos hlt]
  rfl

/-- The root over as many leaves as it should be over needs their values. -/
theorem root_needsValues (h : Tree.isPowerOfTwo count = true) (hle : count ≤ leaves.length) :
    NeedsValues (fun _ ↦ True) (root leaves count) s := by
  rw [root, if_neg (not_not.2 h), if_neg (Nat.not_lt.2 hle)]
  exact (layerAbove_needsValues _ _).bind fun _ _ _ _ ↦ .pure trivial

/-- A number of leaves is refused exactly when it is no power of two. -/
theorem root_refuses_count_iff :
    ((root leaves count).run s).1 = .error (.leafCountNotPowerOfTwo count)
      ↔ ¬ Tree.isPowerOfTwo count = true := by
  constructor
  · intro hr h
    by_cases hlt : leaves.length < count
    · rw [run_root_of_lt h hlt] at hr
      cases hr
    · obtain ⟨-, he⟩ := (root_needsValues h (Nat.le_of_not_lt hlt)).error _ hr
      cases he
  · intro h
    rw [run_root_of_not h]

/-- A power of two is refused exactly when there are fewer leaves. -/
theorem root_lacks_leaves_iff (h : Tree.isPowerOfTwo count = true) :
    ((root leaves count).run s).1 = .error (.notEnoughLeaves count leaves.length)
      ↔ leaves.length < count := by
  constructor
  · intro hr
    by_contra hle
    obtain ⟨-, he⟩ := (root_needsValues h (Nat.le_of_not_lt hle)).error _ hr
    cases he
  · intro hlt
    rw [run_root_of_lt h hlt]

/-- Key generation lays out every root over enough leaves. -/
theorem exists_root_of_setup (hm : s.mode = .setup) (h : Tree.isPowerOfTwo count = true)
    (hle : count ≤ leaves.length) : ∃ node t, (root leaves count).run s = (.ok node, t) := by
  rcases hr : (root leaves count).run s with ⟨e | node, t⟩
  · have hneeds := root_needsValues (s := s) h hle
    obtain ⟨hsetup, -⟩ := hneeds.error e (by rw [hr])
    exact absurd hm hsetup
  · exact ⟨node, t, rfl⟩

end Node

end TreeProver.Circuit
