import TreeProver.Proofs.Circuits.States
import TreeProver.Proofs.Layout.Size

/-!
# The size of the circuits

How large the system of a circuit is at most can be read off its depth or its number of leaves. All
inclusion circuits, and list root circuits of up to 2048 leaves, stay below the largest domain.
-/

namespace TreeProver

open Circuit Layout Synth

/-- A statement about a computation of bounded size takes two digests and two comparisons more. -/
theorem Committed.constraints_le {γ : Type} [Computation γ] {f : Committed γ} {n i o : Nat}
    (h : Adds n (fun ports : Ports ↦ ports.input.length = i ∧ ports.output.length = o)
      (Computation.define f.computation)) {mode : Mode} {s : Layout}
    (hl : f.layout mode = .ok s) :
    s.toR1cs.constraints ≤ n + (digestRows i + 1) + (digestRows o + 1) := by
  have hd : Adds (n + (digestRows i + 1) + (digestRows o + 1)) (fun _ ↦ True) f.define := by
    have hports (ports : Ports) (hp : ports.input.length = i ∧ ports.output.length = o)
        (x y : Column) : Adds (digestRows i + 1 + (digestRows o + 1)) (fun _ ↦ True)
        (do
          (do equate (← Synth.commitment ports.input commitmentBits) (Form.column x))
          (do equate (← Synth.commitment ports.output commitmentBits) (Form.column y))) := by
      rw [← hp.1, ← hp.2]
      exact ((commitment_adds _ _).bind fun _ _ ↦ equate_adds _ _).bind fun _ _ ↦
        (commitment_adds _ _).bind fun _ _ ↦ equate_adds _ _
    have he : f.define = (do
        let x ← newInput (f.inputHash.map Word.toScalar)
        let y ← newInput (f.outputHash.map Word.toScalar)
        let ports ← Computation.define f.computation
        (do equate (← Synth.commitment ports.input commitmentBits) (Form.column x))
        (do equate (← Synth.commitment ports.output commitmentBits) (Form.column y))) := by
      simp only [define, bind_assoc]
    rw [he]
    refine ((newInput_adds _).bind fun x _ ↦ (newInput_adds _).bind fun y _ ↦ h.bind fun ports hp ↦
      hports ports hp x y).le ?_
    omega
  have hr := (hd (Layout.empty mode)).1
  rw [layout_eq_iff.1 hl] at hr
  exact Nat.le_trans s.constraints_le (by simpa [rowBound, Layout.empty] using hr)

namespace InclusionCircuit

/-- The size of an inclusion circuit grows with its depth. -/
theorem Shaped.define_adds {depth : Nat} {c : InclusionCircuit} (h : Shaped depth c) :
    Adds (576 + depth * 256 + (96 + depth * Node.levelRows))
      (fun ports ↦ ports.input.length = 40 ∧ ports.output.length = 32)
      (Computation.define c) := by
  have hwires : Adds 320 (fun bs : List Byte ↦ bs.length = 40) c.input.allocWires := by
    rw [Buffer.allocWires, h.input.size]
    exact Byte.allocAll_adds 40 _
  have hpath : Adds (depth * 256) (fun ns : List Node ↦ ns.length = depth)
      (c.optionalPath.mapM (Node.alloc .witness)) := by
    have hm := Adds.mapM fun v (_ : v ∈ c.optionalPath) ↦ Node.alloc_adds v
    rw [h.length_optionalPath] at hm
    exact hm.mono (Nat.le_refl _) fun _ hns ↦ hns.1
  rw [define_eq]
  refine (hwires.bind fun wires hw ↦ (Adds.ofExcept fun _ _ ↦ trivial).bind fun root _ ↦
    (Adds.ofExcept fun _ _ ↦ trivial).bind fun gindex _ ↦ (Node.alloc_adds _).bind fun leaf _ ↦
    hpath.bind fun path hp ↦ (hp ▸ Node.verifyAt_adds root leaf path gindex).bind fun _ _ ↦
    Adds.pure ⟨hw, leaf.length_bytes⟩).le ?_
  omega

/-- An inclusion circuit has fewer constraints than the largest domain has points, whatever its
depth. -/
theorem Shaped.constraints_lt {depth : Nat} {f : Committed InclusionCircuit}
    (h : Shaped depth f.computation) {mode : Mode} {s : Layout} (hl : f.layout mode = .ok s) :
    s.toR1cs.constraints < 2 ^ 23 := by
  have hc := Committed.constraints_le h.define_adds hl
  have hd : depth ≤ 63 := Nat.le_of_lt_succ h.lt
  have hm := Nat.mul_le_mul_right Node.levelRows hd
  have hrows : Node.levelRows = 119680 ∧ digestRows 40 = 29984 ∧ digestRows 32 = 29984 := by
    decide
  obtain ⟨hr, h40, h32⟩ := hrows
  rw [hr] at hc hm
  rw [h40, h32] at hc
  omega

end InclusionCircuit

namespace ListRootCircuit

/-- The size of a list root circuit grows with the number of its leaves. -/
theorem Shaped.define_adds {leaves : Nat} {c : ListRootCircuit} (h : Shaped leaves c) :
    Adds (leaves * 256 + leaves * digestRows 64)
      (fun ports ↦ ports.input.length = leaves * 32 ∧ ports.output.length = 32)
      (Computation.define c) := by
  have hwires : Adds (leaves * 256) (fun bs : List Byte ↦ bs.length = leaves * 32)
      c.input.allocWires := by
    rw [Buffer.allocWires, h.input.size]
    refine (Byte.allocAll_adds (leaves * 32) _).le ?_
    rw [Nat.mul_assoc]
  rw [define_eq, h.leaves]
  exact hwires.bind fun wires hw ↦ ((Adds.ofExcept fun _ _ ↦ trivial).bind fun nodes _ ↦
    (Node.root_adds nodes leaves).bind fun root _ ↦ Adds.pure ⟨hw, root.length_bytes⟩).le (by simp)

/-- A list root circuit of up to 2048 leaves has fewer constraints than the largest domain has
points. -/
theorem Shaped.constraints_lt {leaves : Nat} {f : Committed ListRootCircuit}
    (h : Shaped leaves f.computation) (hn : leaves ≤ 2048) {mode : Mode} {s : Layout}
    (hl : f.layout mode = .ok s) : s.toR1cs.constraints < 2 ^ 28 - 3 := by
  have hc := Committed.constraints_le h.define_adds hl
  have hrows : digestRows 64 = 59712 ∧ digestRows 32 = 29984 := by
    decide
  obtain ⟨h64, h32⟩ := hrows
  rw [h64, h32, digestRows, Sha256.blockCount] at hc
  have hr : Lower.rowsPerBlock = 29728 := by decide
  rw [hr] at hc
  omega

end ListRootCircuit

end TreeProver
