import TreeProver.Proofs.Circuits.Additive
import TreeProver.Proofs.Layout.Mirror
import TreeProver.Proofs.Lowering.Shape

/-!
# The states of a circuit

A circuit is made, and may then be given its private part and inputs any number of times. Whatever
state it has reached, it keeps its depth or its number of leaves and holds only values of the right
size. All its states lay out the same columns and gates, so a key that is generated in one of them
serves all of them.
-/

namespace TreeProver

open Circuit Layout Synth

variable {γ : Type} [Computation γ]

/-- What is laid out for proving is mirrored by key generation for another state of its computation
when the computations are. There are two public inputs, and both layouts have the same system. -/
theorem Committed.exists_setup {f₀ f : Committed γ}
    (h : Mirrored (Computation.define f₀.computation) (Computation.define f.computation))
    {s : Layout} (hs : f.layout .proving = .ok s) :
    ∃ s₀, f₀.layout .setup = .ok s₀ ∧ s₀.toR1cs = s.toR1cs ∧ s.inputs = 2 := by
  have hstart : (Layout.empty .setup).Mirrors (Layout.empty .proving) :=
    ⟨rfl, by decide, rfl, rfl, rfl⟩
  rw [layout_eq_iff] at hs
  obtain ⟨i, s₁, h₁, hs⟩ := run_bind_ok_iff.1 hs
  obtain ⟨o, s₂, h₂, hs⟩ := run_bind_ok_iff.1 hs
  obtain ⟨t₁, ht₁, hm₁, hi₁⟩ := newInput_mirrors hstart (f₀.inputHash.map Word.toScalar) h₁
  obtain ⟨t₂, ht₂, hm₂, hi₂⟩ := newInput_mirrors hm₁ (f₀.outputHash.map Word.toScalar) h₂
  -- What follows the two public inputs is mirrored as a whole.
  have hrest : Mirrored
      (do
        let ports ← Computation.define f₀.computation
        equate (← Synth.commitment ports.input commitmentBits) (Form.column i)
        equate (← Synth.commitment ports.output commitmentBits) (Form.column o))
      (do
        let ports ← Computation.define f.computation
        equate (← Synth.commitment ports.input commitmentBits) (Form.column i)
        equate (← Synth.commitment ports.output commitmentBits) (Form.column o)) := by
    have hc (message : List Byte) : Mirrored (Synth.commitment message commitmentBits)
        (Synth.commitment message commitmentBits) :=
      (sha256_mirrored message).bind fun _ ↦ .pure _
    exact h.bind fun ports ↦ (hc _).bind fun _ ↦ (equate_mirrored _ _).bind fun _ ↦
      (hc _).bind fun _ ↦ equate_mirrored _ _
  obtain ⟨⟨t₃, ht₃, hm₃⟩, hi₃⟩ := hrest hm₂ hs
  have hrun : f₀.define.run (Layout.empty .setup) = (.ok (), t₃) :=
    run_bind_ok_iff.2 ⟨i, t₁, ht₁, run_bind_ok_iff.2 ⟨o, t₂, ht₂, ht₃⟩⟩
  exact ⟨t₃, layout_eq_iff.2 hrun, toR1cs_congr hm₃.inputs hm₃.witnesses hm₃.gates,
    by rw [hi₃, hi₂, hi₁]; rfl⟩

/-- Some state of a computation can be satisfied that lays out what this one lays out. -/
def Satisfiable (c₀ : γ) : Prop :=
  ∃ (c : γ) (p : Prop) (input output : Bytes),
    Mirrored (Computation.define c₀) (Computation.define c) ∧ Computes c p input output ∧ p

/-- Key generation lays out every statement about a computation that can be satisfied in some state.
The system is that of a satisfied layout. -/
theorem Satisfiable.exists_setup {f₀ : Committed γ} (h : Satisfiable f₀.computation) :
    ∃ s₀ s : Layout, f₀.layout .setup = .ok s₀ ∧ s₀.toR1cs = s.toR1cs ∧ s.Filled ∧ s.Satisfied := by
  obtain ⟨c, p, input, output, hm, hc, hp⟩ := h
  obtain ⟨s, hl, hf, -, hs⟩ := hc.layout_satisfied_iff (commitment input) (commitment output)
  obtain ⟨s₀, hl₀, he, -⟩ := Committed.exists_setup hm hl
  exact ⟨s₀, s, hl₀, he, hf, hs.2 ⟨hp, rfl, rfl⟩⟩

namespace Circuit.Buffer

/-- The buffer has the given size, and so have its values if it has any. -/
structure Fits (b : Buffer) (n : Nat) : Prop where
  size : b.size = n
  values : ∀ xs, b.values = some xs → xs.length = n

/-- An empty buffer fits its size. -/
theorem fits_empty (n : Nat) : (empty n).Fits n := ⟨rfl, by rintro _ ⟨⟩⟩

/-- A buffer that takes values keeps its size. -/
theorem Fits.assign {b c : Buffer} {n : Nat} {xs : Bytes} (h : b.Fits n)
    (ha : b.assign xs = .ok c) : c.Fits n ∧ c.values = some xs ∧ xs.length = n := by
  obtain ⟨hl, rfl⟩ := assign_ok_iff.1 ha
  refine ⟨⟨h.size, ?_⟩, rfl, hl.trans h.size⟩
  rintro _ ⟨⟩
  exact hl.trans h.size

/-- The wires that a buffer is left with do not matter. -/
theorem Fits.withWires {b : Buffer} {n : Nat} (h : b.Fits n) (wires : List Byte) :
    Fits { b with wires := wires } n := ⟨h.size, h.values⟩

/-- The wires of buffers of one size are mirrored. -/
theorem Fits.allocWires_mirrored {b₀ b : Buffer} {n : Nat} (h₀ : b₀.Fits n)
    (h : b.Fits n) : Mirrored b₀.allocWires b.allocWires := by
  rw [allocWires, allocWires, h₀.size, h.size]
  exact Byte.allocAll_mirrored h₀.values

end Circuit.Buffer

namespace InclusionCircuit

/-- The states that a circuit for paths of the given length can reach. A circuit that has been laid
out is left with wires. -/
inductive Reached (depth : Nat) : InclusionCircuit → Prop
  | new {c : InclusionCircuit} (h : new depth = .ok c) : Reached depth c
  | withOpening {c c' : InclusionCircuit} {leaf : Word} {path : List Word} (hc : Reached depth c)
      (h : c.withOpening leaf path = .ok c') : Reached depth c'
  | assign {c c' : InclusionCircuit} {input : Bytes} (hc : Reached depth c)
      (h : c.assign input = .ok c') : Reached depth c'
  | laidOut {c : InclusionCircuit} (hc : Reached depth c) (wires : List Byte) :
      Reached depth { c with input := { c.input with wires := wires } }

/-- A circuit for paths of the given length whose private path and input have the right sizes. -/
structure Shaped (d : Nat) (c : InclusionCircuit) : Prop where
  lt : d < Gindex.maxDepth
  depth : c.depth = d
  input : c.input.Fits Inclusion.inputSize
  opening : ∀ leaf path, c.opening = some (leaf, path) → path.length = d

variable {depth : Nat} {c c' : InclusionCircuit}

/-- A new circuit has the right sizes. -/
theorem shaped_new (h : new depth = .ok c) : Shaped depth c := by
  rw [new] at h
  split at h
  · contradiction
  · next hd =>
    obtain rfl := Except.ok.inj h
    exact ⟨Nat.lt_of_not_le hd, rfl, Buffer.fits_empty _, by rintro _ _ ⟨⟩⟩

/-- A private path keeps the sizes. -/
theorem Shaped.withOpening (hc : Shaped depth c) {leaf : Word} {path : List Word}
    (h : c.withOpening leaf path = .ok c') : Shaped depth c' := by
  rw [InclusionCircuit.withOpening] at h
  split at h
  · next hl =>
    obtain rfl := Except.ok.inj h
    refine ⟨hc.lt, hc.depth, hc.input, ?_⟩
    rintro _ _ ⟨⟩
    exact hl.trans hc.depth
  · contradiction

/-- An input keeps the sizes; the private path is there already. -/
theorem Shaped.assign (hc : Shaped depth c) {input : Bytes} (h : c.assign input = .ok c') :
    Shaped depth c' ∧ c'.input.values = some input ∧ input.length = Inclusion.inputSize ∧
      c'.opening = c.opening ∧ c.opening.isSome = true := by
  rw [InclusionCircuit.assign] at h
  split at h
  · contradiction
  · next opening ho =>
    cases hb : c.input.assign input with
    | error e => simp [hb, bind, Except.bind] at h
    | ok b =>
      simp only [hb, bind, Except.bind, Except.ok.injEq] at h
      obtain ⟨hf, hv, hl⟩ := hc.input.assign hb
      subst h
      exact ⟨⟨hc.lt, hc.depth, hf, hc.opening⟩, hv, hl, rfl, by rw [ho]; rfl⟩

/-- Every state that can be reached has the right sizes. -/
theorem Reached.shaped (h : Reached depth c) : Shaped depth c := by
  induction h with
  | new h => exact shaped_new h
  | withOpening _ h ih => exact ih.withOpening h
  | assign _ h ih => exact (ih.assign h).1
  | laidOut _ wires ih => exact ⟨ih.lt, ih.depth, ih.input.withWires wires, ih.opening⟩

/-- With an input of a state the circuit computes the leaf, under the demand that the witness made
of the input and the private part is consistent. -/
theorem Shaped.computes (hc : Shaped depth c) {input : Bytes} (h : c.assign input = .ok c') :
    ∃ w : Inclusion, c.opening = some (w.leaf, w.path) ∧ w.path.length = depth ∧
      w.inputBytes = input ∧ Computes c' (w.isConsistent = true) input w.leaf.bytes := by
  obtain ⟨hc', hv, hl, ho, hsome⟩ := hc.assign h
  obtain ⟨⟨leaf, path⟩, hleaf⟩ := Option.isSome_iff_exists.1 hsome
  obtain ⟨w, rfl, rfl, hin, hr, hg⟩ := Inclusion.exists_inputBytes_eq leaf path hl
  have hlen : w.path.length = depth := hc.opening _ _ hleaf
  refine ⟨w, hleaf, hlen, hin, ?_⟩
  refine InclusionCircuit.computes (ho.trans hleaf) hv (hl.trans hc'.input.size.symm) hr hg
    (Nat.le_of_eq hl) ?_
  rw [hl, hlen]
  exact hc.lt

/-- The siblings of a path are as many as the depth says. -/
theorem Shaped.length_optionalPath (hc : Shaped depth c) : c.optionalPath.length = depth := by
  rw [optionalPath]
  split
  · next leaf path ho =>
    rw [List.length_map, hc.opening leaf path ho]
  · rw [List.length_replicate, hc.depth]

/-- Laying the circuit out begins with the wires of its input. -/
theorem define_eq (c : InclusionCircuit) : Computation.define c = (do
    let wires ← c.input.allocWires
    let root ← liftM (Node.ofBytes (wires.take Word.size))
    let gindex ← liftM (Index.ofBytes (wires.drop Word.size))
    let leaf ← Node.alloc .witness (c.opening.map Prod.fst)
    let path ← c.optionalPath.mapM (Node.alloc .witness)
    Node.verifyAt root leaf path gindex
    pure ⟨wires, leaf.bytes⟩) := by
  simp [Computation.define, define, Buffer.alloc_eq]

/-- Any state with values is mirrored by any other one. -/
theorem Shaped.define_mirrored {c₀ : InclusionCircuit} (h₀ : Shaped depth c₀) (h : Shaped depth c) :
    Mirrored (Computation.define c₀) (Computation.define c) := by
  have hpath : Mirrored (c₀.optionalPath.mapM (Node.alloc .witness))
      (c.optionalPath.mapM (Node.alloc .witness)) := by
    refine .mapM (r := fun _ _ ↦ True) (fun _ _ _ ↦ Node.alloc_mirrored _ _) ?_
    exact List.forall₂_iff_get.2
      ⟨h₀.length_optionalPath.trans h.length_optionalPath.symm, fun _ _ _ ↦ trivial⟩
  rw [define_eq, define_eq]
  exact (h₀.input.allocWires_mirrored h.input).bind fun wires ↦
    (Mirrored.ofExcept _).bind fun root ↦ (Mirrored.ofExcept _).bind fun gindex ↦
      (Node.alloc_mirrored _ _).bind fun leaf ↦ hpath.bind fun path ↦
        (Node.verifyAt_mirrored root leaf path gindex).bind fun _ ↦ .pure _

end InclusionCircuit

namespace ListRootCircuit

/-- The states that a circuit for the given number of leaves can reach. A circuit that has been laid
out is left with wires. -/
inductive Reached (leaves : Nat) : ListRootCircuit → Prop
  | new {c : ListRootCircuit} (h : new leaves = .ok c) : Reached leaves c
  | assign {c c' : ListRootCircuit} {input : Bytes} (hc : Reached leaves c)
      (h : c.assign input = .ok c') : Reached leaves c'
  | laidOut {c : ListRootCircuit} (hc : Reached leaves c) (wires : List Byte) :
      Reached leaves { c with input := { c.input with wires := wires } }

/-- A circuit for the given number of leaves, whose input has the right size. -/
structure Shaped (n : Nat) (c : ListRootCircuit) : Prop where
  isPowerOfTwo : Tree.isPowerOfTwo n = true
  leaves : c.leaves = n
  input : c.input.Fits (n * Word.size)

variable {leaves : Nat} {c c' : ListRootCircuit}

/-- A new circuit has the right sizes. -/
theorem shaped_new (h : new leaves = .ok c) : Shaped leaves c := by
  rw [new] at h
  split at h
  · contradiction
  · next hp =>
    split at h
    · contradiction
    · obtain rfl := Except.ok.inj h
      exact ⟨not_not.1 hp, rfl, Buffer.fits_empty _⟩

/-- An input keeps the sizes. -/
theorem Shaped.assign (hc : Shaped leaves c) {input : Bytes} (h : c.assign input = .ok c') :
    Shaped leaves c' ∧ c'.input.values = some input ∧ input.length = leaves * Word.size := by
  cases hb : c.input.assign input with
  | error e => simp [ListRootCircuit.assign, hb, bind, Except.bind] at h
  | ok b =>
    simp only [ListRootCircuit.assign, hb, bind, Except.bind, Except.ok.injEq] at h
    obtain ⟨hf, hv, hl⟩ := hc.input.assign hb
    subst h
    exact ⟨⟨hc.isPowerOfTwo, hc.leaves, hf⟩, hv, hl⟩

/-- Every state that can be reached has the right sizes. -/
theorem Reached.shaped (h : Reached leaves c) : Shaped leaves c := by
  induction h with
  | new h => exact shaped_new h
  | assign _ h ih => exact (ih.assign h).1
  | laidOut _ wires ih => exact ⟨ih.isPowerOfTwo, ih.leaves, ih.input.withWires wires⟩

/-- With an input of a state the circuit computes the root over the leaves in the input. -/
theorem Shaped.computes (hc : Shaped leaves c) {input : Bytes} (h : c.assign input = .ok c') :
    Computes c' True input
      ((Tree.layerAbove leaves.log2 (wordsOf leaves input)).headD default).bytes := by
  obtain ⟨hc', hv, hl⟩ := hc.assign h
  have hcomp := ListRootCircuit.computes hv (hl.trans hc'.input.size.symm)
    (hc'.leaves ▸ hc'.isPowerOfTwo) (Nat.le_of_eq (hc'.leaves ▸ hl.symm))
  rwa [hc'.leaves] at hcomp

/-- Laying the circuit out begins with the wires of its input. -/
theorem define_eq (c : ListRootCircuit) : Computation.define c = (do
    let wires ← c.input.allocWires
    let nodes ← liftM (nodes c.leaves wires)
    let root ← Node.root nodes c.leaves
    pure ⟨wires, root.bytes⟩) := by
  simp [Computation.define, define, Buffer.alloc_eq]

/-- Any state with values is mirrored by any other one. -/
theorem Shaped.define_mirrored {c₀ : ListRootCircuit} (h₀ : Shaped leaves c₀)
    (h : Shaped leaves c) :
    Mirrored (Computation.define c₀) (Computation.define c) := by
  rw [define_eq, define_eq, h₀.leaves, h.leaves]
  exact (h₀.input.allocWires_mirrored h.input).bind fun wires ↦
    (Mirrored.ofExcept _).bind fun _ ↦ (Node.root_mirrored _ _).bind fun _ ↦ .pure _

end ListRootCircuit

end TreeProver
