import TreeProver.Circuit.Buffer
import TreeProver.Circuit.Committed
import TreeProver.Proofs.Layout.Digest

/-!
# Laying out statements

A computation with an input computes an output under a demand when it can be laid out behind every
filled layout, with that demand and with ports that stand for the two byte strings. A statement
about such a computation can be laid out with any two commitments. It is satisfied exactly when the
demand is met and both commitments are, as scalars, those to the input and to the output.
-/

namespace TreeProver

open Circuit Layout Synth

/-- A buffer gets the wires that are allocated for it. -/
theorem Circuit.Buffer.alloc_eq (b : Buffer) :
    b.alloc = b.allocWires >>= fun wires ↦ pure { b with wires := wires } := by
  funext s
  have hleft : b.alloc s = (ofResult (b.allocate s).1, (b.allocate s).2) := rfl
  have hright := run_bind b.allocWires (fun wires ↦ pure { b with wires := wires }) s
  rw [hleft, allocate]
  refine Eq.trans ?_ hright.symm
  rcases b.allocWires.run s with ⟨e | wires, t⟩
  · rfl
  · rfl

/-- A buffer with values of its size gets wires that stand for the values. -/
theorem Circuit.Buffer.alloc_lays {s : Layout} (h : s.Filled) {b : Buffer} {xs : Bytes}
    (hv : b.values = some xs) (hl : xs.length = b.size) :
    ∃ wires t, Lays b.alloc s True { b with wires := wires } t ∧ t.BytesAre wires xs ∧
      ∀ w ∈ wires, w.IsWired := by
  obtain ⟨wires, t, ht, hb, hw⟩ := Byte.allocAll_lays h .witness xs
  rw [← hv, hl] at ht
  have hp := Lays.pure ht.grows.filled { b with wires := wires }
  rw [alloc_eq]
  exact ⟨wires, t, (ht.bind hp).congr (by simp), hb, fun w hm ↦ hw w hm (by decide)⟩

/-- A buffer takes the values that have its size. -/
theorem Circuit.Buffer.assign_ok_iff {b c : Buffer} {xs : Bytes} :
    b.assign xs = .ok c ↔ xs.length = b.size ∧ c = { b with values := some xs } := by
  rw [Buffer.assign, setValues]
  split
  · next h => simp [ofResult, h, eq_comm]
  · next h => simp [ofResult, h]

/-- A buffer refuses all other values and names their length. -/
theorem Circuit.Buffer.assign_of_ne {b : Buffer} {xs : Bytes} (h : xs.length ≠ b.size) :
    b.assign xs = .error (.invalidLength "byte wires" b.size xs.length) := by
  rw [Buffer.assign, setValues, if_neg h]
  rfl

/-- What a buffer takes does not depend on the values that it has. -/
theorem Circuit.Buffer.assign_again (b : Buffer) (xs : Option Bytes) (ys : Bytes) :
    Buffer.assign { b with values := xs } ys = b.assign ys := by
  rw [Buffer.assign, Buffer.assign, setValues, setValues]
  split
  · rfl
  · rfl

variable {γ : Type} [Computation γ]

/-- The layout of a statement is what laying it out from nothing leaves behind. -/
theorem Committed.layout_eq_iff {f : Committed γ} {mode : Mode} {s : Layout} :
    f.layout mode = .ok s ↔ f.define.run (Layout.empty mode) = (.ok (), s) := by
  rw [layout]
  split
  · next u t hr =>
    rw [hr]
    exact ⟨fun h ↦ by rw [Except.ok.inj h], fun h ↦ congrArg Except.ok (Prod.mk.inj h).2⟩
  · next e t hr =>
    rw [hr]
    exact ⟨fun h ↦ by contradiction, fun h ↦ absurd (congrArg Prod.fst h) (by simp)⟩

/-- A statement accepts an input exactly when its computation takes it and then has an output; it
records the commitments to both. -/
theorem Committed.setInput_ok_iff {f g : Committed γ} {input : Bytes} :
    f.setInput input = (.ok (), g) ↔ ∃ c output, Computation.assign f.computation input = .ok c ∧
      (⟨f.inputHash, f.outputHash, c⟩ : Committed γ).output = .ok output ∧
      g = ⟨some (commitment input), some (commitment output), c⟩ := by
  rw [setInput]
  cases ha : Computation.assign f.computation input with
  | error e => simp
  | ok c =>
    cases ho : (⟨f.inputHash, f.outputHash, c⟩ : Committed γ).output with
    | error e => simp [ho]
    | ok output => simp [ho, eq_comm]

/-- The statement with an input is the one that accepting the input leaves behind. -/
theorem Committed.assign_ok_iff {f g : Committed γ} {input : Bytes} :
    f.assign input = .ok g ↔ f.setInput input = (.ok (), g) := by
  rw [assign]
  split
  · next u h he => simp [he]
  · next e h he => simp [he]

/-- A statement takes an input only if its computation does. -/
theorem Committed.exists_assign {f g : Committed γ} {input : Bytes} (h : f.assign input = .ok g) :
    ∃ c, Computation.assign f.computation input = .ok c := by
  obtain ⟨c, -, hc, -⟩ := setInput_ok_iff.1 (assign_ok_iff.1 h)
  exact ⟨c, hc⟩

/-- Behind every filled layout the computation lays out the demand `p`, and its ports stand for the
given input and output. -/
def Computes (c : γ) (p : Prop) (input output : Bytes) : Prop :=
  ∀ ⦃s : Layout⦄, s.Filled → ∃ ports t, Lays (Computation.define c) s p ports t ∧
    t.BytesAre ports.input input ∧ t.BytesAre ports.output output

namespace Computes

variable {c : γ} {p : Prop} {input output : Bytes}

/-- The output of a computation is read off its layout. -/
theorem output_eq (h : Computes c p input output) (inputHash outputHash : Option Word) :
    (⟨inputHash, outputHash, c⟩ : Committed γ).output = .ok output := by
  obtain ⟨ports, t, ht, -, ho⟩ := h (filled_empty .valuesOnly (by decide))
  rw [Committed.output, ht.run]
  simp [ho.bytes?]

/-- An input that makes the computation compute an output is accepted and recorded with both
commitments. -/
theorem setInput_eq {f : Committed γ} (ha : Computation.assign f.computation input = .ok c)
    (h : Computes c p input output) :
    f.setInput input = (.ok (), ⟨some (commitment input), some (commitment output), c⟩) :=
  Committed.setInput_ok_iff.2 ⟨c, output, ha, h.output_eq _ _, rfl⟩

/-- An input that makes the computation compute an output is recorded with both commitments. -/
theorem assign_eq {f : Committed γ} (ha : Computation.assign f.computation input = .ok c)
    (h : Computes c p input output) :
    f.assign input = .ok ⟨some (commitment input), some (commitment output), c⟩ :=
  Committed.assign_ok_iff.2 (h.setInput_eq ha)

/-- Laying out a statement demands what the computation demands, and both commitments. -/
theorem define_lays (h : Computes c p input output) (inputHash outputHash : Word) {s : Layout}
    (hs : s.Filled) :
    ∃ t, Lays (⟨some inputHash, some outputHash, c⟩ : Committed γ).define s
      (p ∧ inputHash.toScalar = (commitment input).toScalar
        ∧ outputHash.toScalar = (commitment output).toScalar) () t := by
  have he : (⟨some inputHash, some outputHash, c⟩ : Committed γ).define = (do
      let i ← newInput (some inputHash.toScalar)
      let o ← newInput (some outputHash.toScalar)
      let ports ← Computation.define c
      (do equate (← Synth.commitment ports.input commitmentBits) (Form.column i))
      (do equate (← Synth.commitment ports.output commitmentBits) (Form.column o))) := by
    simp only [Committed.define, Option.map_some, bind_assoc]
  obtain ⟨s₁, h₁, hv₁⟩ := newInput_lays hs inputHash.toScalar
  obtain ⟨s₂, h₂, hv₂⟩ := newInput_lays h₁.grows.filled outputHash.toScalar
  obtain ⟨ports, s₃, h₃, hin, hout⟩ := h h₂.grows.filled
  have k₃ := h₂.grows.keeps.trans h₃.grows.keeps
  obtain ⟨s₄, h₄⟩ := equate_commitment_lays h₃.grows.filled hin (k₃ _ _ hv₁) (by simp)
  have k₄ := h₃.grows.keeps.trans h₄.grows.keeps
  obtain ⟨s₅, h₅⟩ := equate_commitment_lays h₄.grows.filled
    (h₄.grows.keeps.bytesAre hout) (k₄ _ _ hv₂) (by simp)
  rw [he]
  exact ⟨s₅, (h₁.bind (h₂.bind (h₃.bind (h₄.bind h₅)))).congr (by simp)⟩

/-- The layout of a statement for proving is there, filled, and satisfied exactly when the demand of
the computation is met and both commitments are those to the input and to the output. -/
theorem layout_satisfied_iff (h : Computes c p input output) (inputHash outputHash : Word) :
    ∃ s, (⟨some inputHash, some outputHash, c⟩ : Committed γ).layout .proving = .ok s ∧
      s.Filled ∧ s.mode = .proving ∧
      (s.Satisfied ↔ p ∧ inputHash.toScalar = (commitment input).toScalar
        ∧ outputHash.toScalar = (commitment output).toScalar) := by
  obtain ⟨t, ht⟩ := h.define_lays inputHash outputHash (filled_empty .proving (by decide))
  refine ⟨t, ?_, ht.grows.filled, ht.grows.mode, ?_⟩
  · rw [Committed.layout, ht.run]
  · rw [ht.grows.satisfied]
    simp [satisfied_empty]

/-- Checking the layout of a statement for proving says whether the demand of the computation is met
and both commitments are those to the input and to the output. -/
theorem layout_isSatisfied (h : Computes c p input output) (inputHash outputHash : Word) {b : Bool}
    (hb : (p ∧ inputHash.toScalar = (commitment input).toScalar
      ∧ outputHash.toScalar = (commitment output).toScalar) ↔ b = true) :
    ∃ s, (⟨some inputHash, some outputHash, c⟩ : Committed γ).layout .proving = .ok s ∧
      s.isSatisfied = .ok b := by
  obtain ⟨s, hl, hf, hm, hs⟩ := h.layout_satisfied_iff inputHash outputHash
  exact ⟨s, hl, hf.isSatisfied_eq hm (hs.trans hb)⟩

end Computes

end TreeProver
