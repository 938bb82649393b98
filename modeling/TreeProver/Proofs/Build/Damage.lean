import TreeProver.Circuits.Mask
import TreeProver.Proofs.Build.Completeness
import TreeProver.Proofs.Build.Storage
import TreeProver.Proofs.Circuits.ListRoot
import TreeProver.Proofs.Groth16.Abort
import TreeProver.Proofs.Tree.Replacement

/-!
# Damaged builds

A system and a key that are put together are compared in one number, and an assignment is compared
with the system in three. Nothing else is looked at before the matrices and the points are read, so
a build that has been read from damaged files may abort while it proves. It does so exactly when a
satisfied statement has the counts of its system and something that proving reads is not there.
Where a build comes from the circuits of the library, everything is there.
-/

namespace TreeProver

open Circuit Layout Synth

variable {γ : Type} [Computation γ]

namespace Build

/-- A build aborts exactly when its backend does for the assignment of a statement with both
commitments. -/
theorem prove_eq_abort_iff [Backend] {b : Build} {f : Committed γ} {e : Groth16.Abort} :
    b.prove f = .error (.abort e) ↔ f.inputHash.isSome = true ∧ f.outputHash.isSome = true ∧
      ∃ z, b.assignment f = .ok z ∧
        Backend.prove b.key b.r1cs (blinding z).1 (blinding z).2 z = .error (.abort e) := by
  rw [prove]
  cases f.inputHash with
  | none => simp
  | some inputHash =>
    cases f.outputHash with
    | none => simp
    | some outputHash =>
      cases b.assignment f with
      | error e => simp
      | ok z =>
        simp only [points, Option.isSome_some, true_and, Except.ok.injEq, exists_eq_left']
        rcases Backend.prove b.key b.r1cs (blinding z).1 (blinding z).2 z with (e | e) | p
        · simp [bind, Except.bind]
        · simp [bind, Except.bind]
        · simp [bind, Except.bind]

/-- An assignment has a value for every column that the stored system counts. -/
theorem size_of_assignment [Additive γ] {b : Build} {f : Committed γ} {z : Array Fr}
    (h : b.assignment f = .ok z) : z.size = b.r1cs.instances + b.r1cs.witnesses := by
  obtain ⟨s, hl, hv, hc, rfl⟩ := assignment_ok_iff.1 h
  obtain ⟨hf, hm⟩ := Committed.filled_of_layout hl
  obtain ⟨hi, hw, -⟩ := R1cs.checkShape_ok_iff.1 hc
  rcases hf.firstViolated hm with ⟨-, hs⟩ | ⟨⟨i, hv'⟩, -⟩
  · rw [hf.size_assignment hs, hi, hw]
    rfl
  · rw [hv] at hv'
    cases hv'

/-- Everything that proving reads is there for the blinding scalar `r`. -/
def InShape (b : Build) (r : Fr) : Prop :=
  Groth16.InShape b.key b.r1cs r (b.r1cs.instances + b.r1cs.witnesses)

instance (b : Build) (r : Fr) : Decidable (b.InShape r) :=
  inferInstanceAs (Decidable (Groth16.InShape _ _ _ _))

/-- A build aborts exactly when a satisfied statement has the counts of its system, of which there
is room for in a domain, and something that proving reads is not there. -/
theorem exists_abort_iff [Additive γ] (b : Build) (f : Committed γ) :
    (∃ e, b.prove f = .error (.abort e)) ↔ f.inputHash.isSome = true ∧ f.outputHash.isSome = true ∧
      ∃ z, b.assignment f = .ok z ∧ b.r1cs.constraints + b.r1cs.instances ≤ 2 ^ 28 ∧
        ¬ b.InShape (blinding z).1 := by
  constructor
  · rintro ⟨e, he⟩
    obtain ⟨hi, ho, z, hz, hp⟩ := prove_eq_abort_iff.1 he
    have hsize := size_of_assignment hz
    have habort := (Groth16.prove_aborts_iff (by omega)).1 ⟨e, hp⟩
    rw [hsize] at habort
    exact ⟨hi, ho, z, hz, habort⟩
  · rintro ⟨hi, ho, z, hz, hroom, hshape⟩
    have hsize := size_of_assignment hz
    rw [InShape, ← hsize] at hshape
    obtain ⟨e, he⟩ := (Groth16.prove_aborts_iff (s := (blinding z).2) (by omega)).2 ⟨hroom, hshape⟩
    exact ⟨e, prove_eq_abort_iff.2 ⟨hi, ho, z, hz, he⟩⟩

/-- A build that is generated for a computation of which some state can be satisfied is in shape. -/
theorem inShape_of_generate {f₀ : Committed γ} (hf₀ : Satisfiable f₀.computation) {random : Stream}
    {b : Build} (hb : generate f₀ random = .ok b) (r : Fr) : b.InShape r := by
  obtain ⟨s₀, s, hl₀, he, hf, hsat⟩ := hf₀.exists_setup
  obtain ⟨s₀', hl₀', hr, hkey, -⟩ := generate_ok_iff.1 hb
  obtain rfl : s₀ = s₀' := Except.ok.inj (hl₀.symm.trans hl₀')
  rw [he] at hr hkey
  have hw := s.toR1cs_wellFormed
  have hwithin := hf.within_toR1cs hsat
  simp only [List.forall_mem_cons] at hwithin
  obtain ⟨hwa, hwb, hwc, -⟩ := hwithin
  obtain ⟨d, secrets, -, hkeyOf⟩ := Groth16.setup_ok hkey
  obtain ⟨hpoints, -⟩ := Groth16.keyOf_length hkeyOf hw.instances
  rw [InShape, hr]
  exact
    { a := fun row hrow ↦ hwa row (List.mem_of_mem_take hrow)
      b := fun row hrow ↦ hwb row (List.mem_of_mem_take hrow)
      c := fun row hrow ↦ hwc row (List.mem_of_mem_take hrow)
      rows := Nat.le_of_eq hw.c.symm
      aColumns := hpoints.a
      bColumns := fun _ ↦ hpoints.b
      bColumns2 := hpoints.b2 }

/-- A build that is in shape for every blinding aborts for no statement. -/
theorem prove_ne_abort [Additive γ] {b : Build} (hb : ∀ r, b.InShape r) (f : Committed γ)
    (e : Groth16.Abort) : b.prove f ≠ .error (.abort e) := by
  intro he
  obtain ⟨-, -, z, -, -, hshape⟩ := (exists_abort_iff b f).1 ⟨e, he⟩
  exact hshape (hb _)

end Build

/-- At every depth of paths that there is an index for there is a consistent witness. -/
theorem Inclusion.exists_isConsistent {depth : Nat} (hd : depth < Gindex.maxDepth) :
    ∃ w : Inclusion, w.path.length = depth ∧ w.isConsistent = true := by
  have hfirst : (0 : UInt64).toNat < 2 ^ depth := Nat.pow_pos (by decide)
  obtain ⟨-, hcheck⟩ := Tree.check_leafIndex hd hfirst
  let path := List.replicate depth (default : Word)
  let g := UInt64.ofNat (2 ^ depth) + 0
  refine ⟨⟨Tree.restore default path g, default, g, path⟩, List.length_replicate, ?_⟩
  rw [isConsistent_iff, List.length_replicate, hcheck]
  exact ⟨rfl, rfl⟩

/-- A circuit that has been made can be satisfied in some state. -/
theorem InclusionCircuit.Shaped.satisfiable {depth : Nat} {c : InclusionCircuit}
    (hc : Shaped depth c) : Satisfiable c := by
  obtain ⟨w, rfl, hw⟩ := Inclusion.exists_isConsistent hc.lt
  obtain ⟨c₀, c', hc₀, ha, -, hcomp⟩ := exists_computes w hc.lt
  have hc' := ((reached_circuit hc₀).shaped.assign ha).1
  exact ⟨c', _, _, _, hc.define_mirrored hc', hcomp, hw⟩

/-! ### Builds that are generated, and parts that are damaged -/

/-- There is a build for a computation that can be satisfied in some state, if its system has room
in the largest domain. -/
theorem Satisfiable.exists_generate {f₀ : Committed γ} (h : Satisfiable f₀.computation)
    (hsize : ∀ {s : Layout}, f₀.layout .setup = .ok s → s.toR1cs.constraints < 2 ^ 28 - 3) :
    ∃ b, Build.generate f₀ (Stream.ofSeed 0) = .ok b := by
  obtain ⟨c, p, input, output, hm, hc, -⟩ := h
  obtain ⟨s, hl, -⟩ := hc.layout_satisfied_iff (commitment input) (commitment output)
  obtain ⟨s₀, hl₀, he, -⟩ := Committed.exists_setup hm hl
  exact Build.exists_generate Groth16.setup_drawsFromSeedZero hm hl (he ▸ hsize hl₀)

/-- There is a build for every list root circuit of up to 2048 leaves. -/
theorem ListRootCircuit.Reached.exists_generate {n : Nat} {c : ListRootCircuit} (hc : Reached n c)
    (hn : n ≤ 2048) :
    ∃ b, Build.generate (Committed.ofComputation c) (Stream.ofSeed 0) = .ok b := by
  have hs : Satisfiable (Committed.ofComputation c).computation := hc.shaped.satisfiable
  exact hs.exists_generate fun hl ↦ hc.shaped.constraints_lt hn hl

/-- There is a build for every inclusion circuit. -/
theorem InclusionCircuit.Reached.exists_generate {depth : Nat} {c : InclusionCircuit}
    (hc : Reached depth c) :
    ∃ b, Build.generate (Committed.ofComputation c) (Stream.ofSeed 0) = .ok b := by
  have hs : Satisfiable (Committed.ofComputation c).computation := hc.shaped.satisfiable
  exact hs.exists_generate fun hl ↦ Nat.lt_trans (hc.shaped.constraints_lt hl) (by decide)

/-- A key with points for two public inputs and without any for the columns. -/
def ProvingKey.withoutColumns : ProvingKey :=
  ⟨.blind, G1.generator, G1.generator, [], [], [], [], []⟩

/-- The key without points for the columns can be written, so it is read back. -/
theorem ProvingKey.isStorable_withoutColumns : withoutColumns.IsStorable where
  verifying := ⟨⟨G1.isMember_generator, G2.isMember_generator, G2.isMember_generator,
    G2.isMember_generator, by decide⟩, by decide⟩
  beta := G1.isMember_generator
  delta := G1.isMember_generator
  lists := by decide
  bColumns2 := by decide

namespace ListRootCircuit

/-- The circuit for a single leaf, before it has taken one. -/
def single : ListRootCircuit := ⟨1, Buffer.empty Word.size⟩

/-- The statement about a single leaf, which is the root over itself, with the commitments to it. -/
def singleLeaf (leaf : Word) : Committed ListRootCircuit :=
  ⟨some (commitment leaf.bytes), some (commitment leaf.bytes),
    ⟨1, ⟨Word.size, some leaf.bytes, []⟩⟩⟩

/-- The circuit for a single leaf is a new one. -/
theorem reached_single : Reached 1 single := .new rfl

/-- The circuit that holds a single leaf computes the leaf. -/
theorem computes_singleLeaf (leaf : Word) :
    Computes (singleLeaf leaf).computation True leaf.bytes leaf.bytes := by
  have hin : LeafList.inputBytes ⟨[leaf]⟩ = leaf.bytes := List.append_nil _
  have hwords : wordsOf 1 leaf.bytes = [leaf] := hin ▸ wordsOf_inputBytes ⟨[leaf]⟩
  have hroot : (Tree.layerAbove (Nat.log2 1) (wordsOf 1 leaf.bytes)).headD default = leaf := by
    rw [hwords]
    rfl
  have hcomp := ListRootCircuit.computes (c := (singleLeaf leaf).computation) rfl leaf.length_bytes
    rfl (Nat.le_of_eq leaf.length_bytes.symm)
  rwa [show (singleLeaf leaf).computation.leaves = 1 from rfl, hroot] at hcomp

/-- The circuit for a single leaf takes a leaf. -/
theorem assign_single (leaf : Word) :
    single.assign leaf.bytes = .ok (singleLeaf leaf).computation := by
  have hb : single.input.assign leaf.bytes = .ok ⟨Word.size, some leaf.bytes, []⟩ :=
    Buffer.assign_ok_iff.2 ⟨leaf.length_bytes, rfl⟩
  simp only [ListRootCircuit.assign, hb]
  rfl

/-- Once it has taken a leaf, it states that the leaf is the root. -/
theorem assign_singleLeaf (leaf : Word) :
    (Committed.ofComputation single).assign leaf.bytes = .ok (singleLeaf leaf) :=
  (computes_singleLeaf leaf).assign_eq (assign_single leaf)

/-- The statement about a single leaf compiles to the system of its values, which satisfy it. The
system has room in the largest domain. -/
theorem exists_layout_singleLeaf (leaf : Word) : ∃ s : Layout,
    (singleLeaf leaf).layout .proving = .ok s ∧ s.Filled ∧ s.Satisfied ∧
    Build.compile (singleLeaf leaf) = .ok s.toR1cs ∧ s.toR1cs.instances = 3 ∧
    s.toR1cs.constraints + s.toR1cs.instances ≤ 2 ^ 28 ∧
    ∀ k, (⟨s.toR1cs, k⟩ : Build).assignment (singleLeaf leaf) = .ok s.assignment := by
  have hcomp := computes_singleLeaf leaf
  obtain ⟨s, hl, hf, hm, hs⟩ :=
    hcomp.layout_satisfied_iff (commitment leaf.bytes) (commitment leaf.bytes)
  have hsat : s.Satisfied := hs.2 ⟨trivial, rfl, rfl⟩
  have hc := (reached_single.assign (assign_single leaf)).shaped
  obtain ⟨s₀, hl₀, he, hi⟩ := Committed.exists_setup (hc.define_mirrored hc) hl
  have hinst : s.toR1cs.instances = 3 := by simp [toR1cs, R1cs.ofRows, instances, hi]
  have hlt := hc.constraints_lt (by decide) hl
  refine ⟨s, hl, hf, hsat, ?_, hinst, by omega, fun k ↦ ?_⟩
  · rw [Build.compile, Committed.blank, hl₀, ← he]
    rfl
  · exact Build.assignment_eq hl hf hm hsat rfl

end ListRootCircuit

/-- A form with the positions of its columns. -/
def Circuit.Form.positioned (instances : Nat) (f : Form) : List (Fr × Nat) :=
  f.map fun t ↦ (t.1, t.2.position instances)

/-- The columns of a form stand in order. -/
def Circuit.Form.Ordered (instances : Nat) (f : Form) : Prop :=
  (positioned instances f).IsChain (·.2 ≤ ·.2)

instance (instances : Nat) (f : Form) : Decidable (Form.Ordered instances f) :=
  inferInstanceAs (Decidable (List.IsChain _ _))

/-- A form whose columns stand in order is a row once it is collected. -/
theorem Circuit.Form.Ordered.toRow_eq {instances : Nat} {f : Form} (h : Ordered instances f) :
    toRow instances f = collect (positioned instances f) := by
  let order (e e' : Fr × Nat) : Prop := e.2 ≤ e'.2
  have : Trans order order order := ⟨Nat.le_trans⟩
  have hp : (positioned instances f).Pairwise order := List.IsChain.pairwise h
  rw [toRow, ← positioned, List.mergeSort_of_pairwise]
  simpa only [decide_eq_true_eq] using hp

namespace MaskCircuit

/-- The statement of the circuit for no bytes, with the commitments to them. -/
def emptyStatement : Committed MaskCircuit :=
  ⟨some (commitment []), some (commitment []), ⟨0, ⟨0, some [], []⟩⟩⟩

/-- The system of the statement: both public inputs are the commitment to no bytes. -/
def emptySystem : R1cs :=
  ⟨3, 0, 2, 4, 2, 0,
    [[((commitment []).toScalar, 0), (-1, 1)], [((commitment []).toScalar, 0), (-1, 2)]],
    [[(1, 0)], [(1, 0)]], [[], []]⟩

/-- The system of the statement, where the first entry names a column far outside. -/
def damagedSystem : R1cs :=
  { emptySystem with
    a := [[((commitment []).toScalar, 2 ^ 56), (-1, 1)], [((commitment []).toScalar, 0), (-1, 2)]] }

/-- In what is written of the system, the damage is one bit. -/
theorem read_damagedSystem :
    Reader.run R1cs.read (emptySystem.encode.set 103 1) = .ok damagedSystem := by
  decide +kernel

/-- The columns of all rows of a layout stand in order, and its rows are those of the system. -/
private def Collects (s : Layout) : Prop :=
  s.inputs = 2 ∧ s.lower.witnesses = 0 ∧
    (∀ r ∈ s.lower.rows.toList, ∀ f ∈ [r.1, r.2.1, r.2.2], Form.Ordered 3 f) ∧
    R1cs.ofRows 3 0 (s.lower.rows.toList.map fun r ↦ (Form.collect (Form.positioned 3 r.1),
      Form.collect (Form.positioned 3 r.2.1), Form.collect (Form.positioned 3 r.2.2))) = emptySystem

private instance (s : Layout) : Decidable (Collects s) := inferInstanceAs (Decidable (_ ∧ _))

/-- The statement compiles to the system. -/
theorem compile_emptyStatement : Build.compile emptyStatement = .ok emptySystem := by
  have h : ((emptyStatement.layout .setup).toOption.any fun s ↦ decide (Collects s)) = true := by
    decide +kernel
  obtain ⟨s, hl, h⟩ := (Option.any_eq_true _ _).1 h
  obtain ⟨hi, hw, hordered, hrows⟩ := of_decide_eq_true h
  have hinst : s.instances = 3 := by rw [instances, hi]
  have hrow : ∀ r ∈ s.lower.rows.toList, (Form.toRow 3 r.1, Form.toRow 3 r.2.1, Form.toRow 3 r.2.2)
      = (Form.collect (Form.positioned 3 r.1), Form.collect (Form.positioned 3 r.2.1),
        Form.collect (Form.positioned 3 r.2.2)) := by
    intro r hr
    have h := hordered r hr
    rw [(h r.1 (by simp)).toRow_eq, (h r.2.1 (by simp)).toRow_eq, (h r.2.2 (by simp)).toRow_eq]
  have hr1cs : s.toR1cs = emptySystem := by
    rw [toR1cs, hinst, hw, ← hrows, ← List.map_congr_left hrow]
  rw [Build.compile, Committed.blank, Except.eq_ok_of_toOption hl, ← hr1cs]
  rfl

/-- A new circuit for no bytes becomes the statement when it takes the empty input. -/
theorem assign_new : (Committed.ofComputation (new 0 0)).assign [] = .ok emptyStatement :=
  have hc : Computes (⟨0, ⟨0, some [], []⟩⟩ : MaskCircuit) True [] [] :=
    fun _ h ↦ computes rfl rfl h
  hc.assign_eq rfl

/-- The values of the statement meet all demands and have the counts of the system. -/
theorem exists_assignment (k : ProvingKey) :
    ∃ z, (⟨damagedSystem, k⟩ : Build).assignment emptyStatement = .ok z := by
  have h : ((emptyStatement.layout .proving).toOption.any fun s ↦ decide (
      s.firstViolated = .ok none ∧ s.instances = 3 ∧ s.lower.witnesses = 0 ∧
      s.lower.rows.size = 2)) = true := by
    decide +kernel
  obtain ⟨s, hs, h⟩ := (Option.any_eq_true _ _).1 h
  obtain ⟨hv, hi, hw, hr⟩ := of_decide_eq_true h
  refine ⟨_, Build.assignment_ok_iff.2 ⟨s, Except.eq_ok_of_toOption hs, hv, ?_, rfl⟩⟩
  exact R1cs.checkShape_ok_iff.2 ⟨hi.symm, hw.symm, hr.symm⟩

/-- The damaged system is out of shape. -/
theorem not_inShape_damagedSystem (k : ProvingKey) (r : Fr) :
    ¬ (⟨damagedSystem, k⟩ : Build).InShape r := by
  intro h
  have hcolumn : (2 ^ 56 : Nat) < 3 := h.a _ (.head _) _ (.head _)
  exact absurd hcolumn (by decide)

end MaskCircuit

/-! ### Proving on damaged builds -/

/-- Proving aborts exactly on damaged builds. A build, whatever system and key it has been put
together from, aborts for a statement exactly when both commitments are recorded, the values meet
all demands of the statement and have the counts of the system, for which there is room in a domain,
and the system or the key lacks something that is read: a row of the third matrix, a column that a
row names, or a first point. A build that has been generated for an inclusion circuit or a list root
circuit, in whatever state that a new one can reach, lacks nothing, and aborts for no statement. -/
theorem prove_aborts_on_damage {γ : Type} [Computation γ] [Additive γ] (b : Build)
    (f : Committed γ) :
    ((∃ e, b.prove f = .error (.abort e)) ↔
      f.inputHash.isSome = true ∧ f.outputHash.isSome = true ∧
        ∃ z, b.assignment f = .ok z ∧ b.r1cs.constraints + b.r1cs.instances ≤ 2 ^ 28 ∧
          ¬ b.InShape (Build.blinding z).1) ∧
    ∀ random : Stream,
      (∀ (depth : Nat) (f₀ : Committed InclusionCircuit),
        InclusionCircuit.Reached depth f₀.computation → Build.generate f₀ random = .ok b →
        (∀ r, b.InShape r) ∧ ∀ e, b.prove f ≠ .error (.abort e)) ∧
      ∀ (leaves : Nat) (f₀ : Committed ListRootCircuit),
        ListRootCircuit.Reached leaves f₀.computation → Build.generate f₀ random = .ok b →
        (∀ r, b.InShape r) ∧ ∀ e, b.prove f ≠ .error (.abort e) := by
  refine ⟨b.exists_abort_iff f, fun random ↦ ⟨?_, ?_⟩⟩
  · intro depth f₀ hf₀ hb
    have hshape := Build.inShape_of_generate hf₀.shaped.satisfiable hb
    exact ⟨hshape, Build.prove_ne_abort hshape f⟩
  · intro leaves f₀ hf₀ hb
    have hshape := Build.inShape_of_generate hf₀.shaped.satisfiable hb
    exact ⟨hshape, Build.prove_ne_abort hshape f⟩

/-- A build for a single leaf aborts for a leaf of zeros when its key has no points for the columns.
What is generated for a single leaf, or for a path of no siblings, does not abort for that leaf. -/
theorem prove_aborts_on_damage_single_leaf :
    ∃ (f : Committed ListRootCircuit) (m : R1cs), Build.compile f = .ok m ∧
      (∃ e, (⟨m, .withoutColumns⟩ : Build).prove f = .error (.abort e)) ∧
      (∃ (c : ListRootCircuit) (b : Build), ListRootCircuit.new 1 = .ok c ∧
        Build.generate (Committed.ofComputation c) (Stream.ofSeed 0) = .ok b ∧
        ∀ e, b.prove f ≠ .error (.abort e)) ∧
      ∃ (c : InclusionCircuit) (b : Build), InclusionCircuit.new 0 = .ok c ∧
        Build.generate (Committed.ofComputation c) (Stream.ofSeed 0) = .ok b ∧
        ∀ e, b.prove f ≠ .error (.abort e) := by
  let f := ListRootCircuit.singleLeaf default
  have hr := ListRootCircuit.reached_single
  obtain ⟨s, -, -, -, hm, -, hroom, hz⟩ := ListRootCircuit.exists_layout_singleLeaf default
  refine ⟨f, _, hm, ?_, ?_, ?_⟩
  · exact (prove_aborts_on_damage _ f).1.2 ⟨rfl, rfl, _, hz _, hroom, fun h ↦ h.aColumns rfl⟩
  · obtain ⟨b, hb⟩ := hr.exists_generate (by decide)
    exact ⟨_, b, rfl, hb, (((prove_aborts_on_damage b f).2 _).2 1 _ hr hb).2⟩
  · have hr₀ : InclusionCircuit.Reached 0 ⟨0, none, Buffer.empty Inclusion.inputSize⟩ := .new rfl
    obtain ⟨b, hb⟩ := hr₀.exists_generate
    exact ⟨_, b, rfl, hb, (((prove_aborts_on_damage b f).2 _).1 0 _ hr₀ hb).2⟩

/-- What is read and put together without an error may still abort. The statement of the mask
circuit for no bytes aborts with its own system once one bit of what is written of that is flipped.
The list root circuit for a single leaf aborts for a leaf of zeros with its own, intact system and a
key without points for the columns. -/
theorem accepted_parts_abort :
    (∃ (f : Committed MaskCircuit) (m m' : R1cs) (k : ProvingKey) (b : Build) (e : Groth16.Abort),
      (Committed.ofComputation (MaskCircuit.new 0 0)).assign [] = .ok f ∧ Build.compile f = .ok m ∧
      Reader.run R1cs.read (m.encode.set 103 1) = .ok m' ∧
      Reader.run ProvingKey.read k.encode = .ok k ∧ Build.ofParts m' k = .ok b ∧
      b.prove f = .error (.abort e)) ∧
    ∃ (c : ListRootCircuit) (f : Committed ListRootCircuit) (m : R1cs) (k : ProvingKey) (b : Build)
      (e : Groth16.Abort), ListRootCircuit.new 1 = .ok c ∧
      (Committed.ofComputation c).assign (List.replicate 32 0) = .ok f ∧ Build.compile f = .ok m ∧
      Reader.run ProvingKey.read k.encode = .ok k ∧ Build.ofParts m k = .ok b ∧
      b.prove f = .error (.abort e) := by
  have hk := ProvingKey.isStorable_withoutColumns.reads.run_self
  constructor
  · obtain ⟨z, hz⟩ := MaskCircuit.exists_assignment .withoutColumns
    obtain ⟨e, he⟩ := (Build.exists_abort_iff _ MaskCircuit.emptyStatement).2
      ⟨rfl, rfl, z, hz, by decide, MaskCircuit.not_inShape_damagedSystem _ _⟩
    exact ⟨_, _, _, _, _, e, MaskCircuit.assign_new, MaskCircuit.compile_emptyStatement,
      MaskCircuit.read_damagedSystem, hk, rfl, he⟩
  · obtain ⟨s, -, -, -, hm, hinst, hroom, hz⟩ := ListRootCircuit.exists_layout_singleLeaf default
    obtain ⟨e, he⟩ :=
      (Build.exists_abort_iff ⟨s.toR1cs, .withoutColumns⟩ (ListRootCircuit.singleLeaf default)).2
      ⟨rfl, rfl, _, hz _, hroom, fun h ↦ h.aColumns rfl⟩
    have hzeros : List.replicate 32 0 = (default : Word).bytes := by decide
    rw [hzeros]
    refine ⟨_, _, _, _, _, e, rfl, ListRootCircuit.assign_singleLeaf default, hm, hk, ?_, he⟩
    rw [Build.ofParts, hinst]
    rfl

end TreeProver
