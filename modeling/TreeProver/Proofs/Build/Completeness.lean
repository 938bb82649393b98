import TreeProver.Proofs.Build
import TreeProver.Proofs.Circuits.ListRoot
import TreeProver.Proofs.Circuits.PublicInputs
import TreeProver.Proofs.Circuits.Size
import TreeProver.Proofs.Exchange
import TreeProver.Proofs.Groth16.Complete

/-!
# Proofs that verify

A proof system is complete when it finds a proof for every assignment that satisfies the system of a
key, and the key accepts it for the public part of the assignment. A build on a complete proof
system proves every consistent input of its circuit, whatever states the circuit was in when the key
was made and when the input came, and accepts the proof. An inconsistent input is refused.
-/

namespace TreeProver

open Circuit Layout Synth

/-- A commitment passes for one. -/
theorem checkCommitment_commitment (name : String) (data : Bytes) :
    checkCommitment name (commitment data) = .ok () :=
  (checkCommitment_ok_iff name _).2 (toNat_commitment_lt data)

namespace Build

/-- From a key of identities a build proves a statement whose values satisfy its system. -/
theorem prove_of_idle {γ : Type} [Computation γ] {b : Build} (hk : Groth16.Idle b.key)
    (hp : Groth16.HasPoints b.key) {f : Committed γ} {inputHash outputHash : Word}
    (hi : f.inputHash = some inputHash) (ho : f.outputHash = some outputHash) {s : Layout}
    (hf : s.Filled) (hsat : s.Satisfied) (hr1cs : b.r1cs = s.toR1cs)
    (hroom : b.r1cs.constraints + b.r1cs.instances ≤ 2 ^ 28)
    (hz : b.assignment f = .ok s.assignment) :
    b.prove f = .ok (Proof.ofPoints Groth16.idlePoints inputHash outputHash) := by
  obtain ⟨d, hd⟩ := Domain.exists_ofSize hroom
  have hsize := hf.size_assignment hsat
  rw [← hr1cs] at hsize
  have hpoints : Backend.prove b.key b.r1cs (blinding s.assignment).1 (blinding s.assignment).2
      s.assignment = .ok Groth16.idlePoints :=
    hk.prove_eq hp _ _ hd (hr1cs ▸ s.toR1cs_wellFormed) (by omega)
      (hr1cs ▸ hf.toR1cs_isSatisfiedBy hsat)
  refine prove_ok_iff.2 ⟨_, _, _, Groth16.idlePoints, hi, ho, hz, ?_, rfl⟩
  rw [points, hpoints]

variable {γ : Type} [Computation γ] [Backend]

/-- A statement that accepts an input is proved with it. -/
theorem proveInput_of_assign {b : Build} {f g : Committed γ} {input : Bytes}
    (h : f.assign input = .ok g) : (b.proveInput f input).1 = b.prove g := by
  rw [proveInput, Committed.assign_ok_iff.1 h]

/-- What a build makes of a statement about an input and an output: when the demand `p` is met, a
proof that carries both commitments and that the build accepts; otherwise a refusal. -/
def Decides (b : Build) (p : Prop) (input output : Bytes) (r : Except ProvingFailure Proof) :
    Prop :=
  (p → ∃ q, r = .ok q ∧ q.inputHash = hashAndTruncate input 253 ∧
    q.outputHash = hashAndTruncate output 253 ∧ b.verify q = .ok true) ∧
  (¬ p → ∃ i, r = .error (.refused (.unsatisfied i)))

/-- Where the system of a satisfied layout is the stored one and the key of a build comes from it,
the build has points for the assignment, and its key accepts them for the public inputs. -/
theorem exists_points (hk : Backend.IsComplete) {b : Build} {s : Layout} {random : Stream}
    (hr : b.r1cs = s.toR1cs) (hs : (Backend.setup s.toR1cs random).1 = .ok b.key)
    (hf : s.Filled) (hsat : s.Satisfied) :
    ∃ points, b.points s.assignment = .ok points ∧
      (points.a.isMember = true ∧ points.b.isMember = true ∧ points.c.isMember = true) ∧
      Backend.verify b.key.verifying s.inputValues.toList points = .ok true := by
  have hone : s.assignment[0]? = some 1 := by simp [Layout.assignment, columns]
  obtain ⟨points, hp, hmem, hv⟩ := hk (blinding s.assignment).1 (blinding s.assignment).2
    s.toR1cs_wellFormed hs (hf.size_assignment hsat) hone (hf.toR1cs_isSatisfiedBy hsat)
  refine ⟨points, points_ok_iff.2 (hr ▸ hp), hmem, ?_⟩
  rwa [hf.take_assignment, List.drop_one, List.tail_cons] at hv

omit [Backend] in
/-- The assignment of a satisfied statement is found by a build with its system. -/
theorem assignment_eq {b : Build} {f : Committed γ} {s : Layout} (hl : f.layout .proving = .ok s)
    (hf : s.Filled) (hm : s.mode = .proving) (hsat : s.Satisfied) (hr : b.r1cs = s.toR1cs) :
    b.assignment f = .ok s.assignment := by
  rcases hf.firstViolated hm with ⟨hv, -⟩ | ⟨-, hn⟩
  · refine assignment_ok_iff.2 ⟨s, hl, hv, R1cs.checkShape_ok_iff.2 ?_, rfl⟩
    rw [hr]
    exact ⟨rfl, rfl, by simp [toR1cs, R1cs.ofRows]⟩
  · exact absurd hsat hn

variable [Additive γ]

/-- A build decides statements about its computation, in whatever state the key was made. -/
theorem generate_decides (hk : Backend.IsComplete) {f₀ : Committed γ} {random : Stream} {b : Build}
    (hb : generate f₀ random = .ok b) {c : γ} {p : Prop} {input output : Bytes}
    (hm : Mirrored (Computation.define f₀.computation) (Computation.define c))
    (hc : Computes c p input output) :
    b.Decides p input output
      (b.prove (⟨some (commitment input), some (commitment output), c⟩ : Committed γ)) := by
  obtain ⟨s, hl, hf, hmode, hs⟩ := hc.layout_satisfied_iff (commitment input) (commitment output)
  refine ⟨fun hp ↦ ?_, fun hp ↦ b.exists_unsatisfied rfl rfl hl hf hmode fun ht ↦ hp (hs.1 ht).1⟩
  have hsat : s.Satisfied := hs.2 ⟨hp, rfl, rfl⟩
  -- The key was made for the system that is proved now.
  obtain ⟨s₀, hl₀, he, hi⟩ := Committed.exists_setup hm hl
  obtain ⟨s₀', hl₀', hr, hkey, -⟩ := generate_ok_iff.1 hb
  obtain rfl : s₀ = s₀' := Except.ok.inj (hl₀.symm.trans hl₀')
  rw [he] at hr hkey
  obtain ⟨points, hpoints, ⟨ha, hb', hc'⟩, hv⟩ := exists_points hk hr hkey hf hsat
  have hz := assignment_eq hl hf hmode hsat hr
  -- The two public inputs are the commitments, as they are read back from the proof.
  have hpublic : s.inputValues.toList
      = [(commitment input).toScalar, (commitment output).toScalar] := by
    obtain ⟨h₀, h₁⟩ := Committed.inputValues_of_layout hl
    obtain ⟨x, y, hxy⟩ :=
      List.length_eq_two.1 (s.inputValues.length_toList.trans (hf.inputs.trans hi))
    rw [← Array.getElem?_toList, hxy] at h₀ h₁
    rw [hxy, Option.some.inj h₀, Option.some.inj h₁]
  rw [hpublic] at hv
  refine ⟨Proof.ofPoints points (commitment input) (commitment output),
    prove_ok_iff.2 ⟨_, _, _, points, rfl, rfl, hz, hpoints, rfl⟩, rfl, rfl, ?_⟩
  have hpts := Proof.toPoints_ofPoints ha hb' hc' (commitment input) (commitment output)
  have hin : (Proof.ofPoints points (commitment input) (commitment output)).inputHash
      = commitment input := rfl
  have hout : (Proof.ofPoints points (commitment input) (commitment output)).outputHash
      = commitment output := rfl
  simp only [Build.verify, VerifyingKey.verify, hin, hout, checkCommitment_commitment, hpts, hv,
    bind, Except.bind]

/-- A build decides an input of its computation that makes it compute. -/
theorem proveInput_decides (hk : Backend.IsComplete) {f₀ f : Committed γ} {random : Stream}
    {b : Build} (hb : generate f₀ random = .ok b) {c : γ} {p : Prop} {input output : Bytes}
    (ha : Computation.assign f.computation input = .ok c)
    (hm : Mirrored (Computation.define f₀.computation) (Computation.define c))
    (hc : Computes c p input output) :
    b.Decides p input output (b.proveInput f input).1 := by
  rw [proveInput, hc.setInput_eq ha]
  exact generate_decides hk hb hm hc

end Build

namespace InclusionCircuit

/-- A build for paths of a given length decides every input of its circuit: whether the witness of
the input and the private path is consistent. -/
theorem proveInput_decides [Backend] (hk : Backend.IsComplete) {depth : Nat}
    {f₀ f g : Committed InclusionCircuit} (h₀ : Shaped depth f₀.computation)
    (h : Shaped depth f.computation) {random : Stream} {b : Build}
    (hb : Build.generate f₀ random = .ok b) {input : Bytes} (hg : f.assign input = .ok g) :
    ∃ w : Inclusion, f.computation.opening = some (w.leaf, w.path) ∧ w.path.length = depth ∧
      w.inputBytes = input ∧ g.output = .ok w.leaf.bytes ∧
      b.Decides (w.isConsistent = true) input w.leaf.bytes (b.proveInput f input).1 := by
  obtain ⟨c, ha⟩ := Committed.exists_assign hg
  obtain ⟨w, hleaf, hlen, hin, hcomp⟩ := h.computes ha
  rw [hcomp.assign_eq ha] at hg
  obtain rfl := Except.ok.inj hg
  exact ⟨w, hleaf, hlen, hin, hcomp.output_eq _ _,
    Build.proveInput_decides hk hb ha (h₀.define_mirrored (h.assign ha).1) hcomp⟩

end InclusionCircuit

namespace ListRootCircuit

/-- Whole words that are taken off the front of as many bytes are those bytes. -/
theorem flatMap_wordsOf (count : Nat) {bs : Bytes} (h : bs.length = count * Word.size) :
    (wordsOf count bs).length = count ∧ (wordsOf count bs).flatMap Word.bytes = bs := by
  obtain ⟨ws, rfl, rfl⟩ := Word.exists_flatMap_bytes count h
  have hwords : wordsOf ws.length (ws.flatMap Word.bytes) = ws := wordsOf_inputBytes ⟨ws⟩
  rw [hwords]
  exact ⟨rfl, rfl⟩

/-- A build for a number of leaves proves every input of its circuit, and the output is the root
over the leaves of the input. -/
theorem proveInput_decides [Backend] (hk : Backend.IsComplete) {leaves : Nat}
    {f₀ f g : Committed ListRootCircuit} (h₀ : Shaped leaves f₀.computation)
    (h : Shaped leaves f.computation) {random : Stream} {b : Build}
    (hb : Build.generate f₀ random = .ok b) {input : Bytes} (hg : f.assign input = .ok g) :
    ∃ (w : LeafList) (root : Word), w.leaves.length = leaves ∧ w.inputBytes = input ∧
      Tree.root w.leaves = .ok root ∧ g.output = .ok root.bytes ∧
      b.Decides True input root.bytes (b.proveInput f input).1 := by
  obtain ⟨c, ha⟩ := Committed.exists_assign hg
  obtain ⟨hc, -, hl⟩ := h.assign ha
  obtain ⟨hlen, hbytes⟩ := flatMap_wordsOf leaves hl
  have hcomp := h.computes ha
  rw [hcomp.assign_eq ha] at hg
  obtain rfl := Except.ok.inj hg
  refine ⟨⟨wordsOf leaves input⟩, _, hlen, hbytes, ?_, hcomp.output_eq _ _,
    Build.proveInput_decides hk hb ha (h₀.define_mirrored hc) hcomp⟩
  rw [Tree.root, hlen, if_pos hc.isPowerOfTwo]

end ListRootCircuit

/-- Proving, then verifying. A build on a complete proof system is generated in any state that an
inclusion circuit of some depth can reach, and proves in any other one. For every input that the
circuit takes, the leaf is the output; a consistent witness of that input gives a proof that carries
both commitments and that the build accepts, and any other witness is refused. The same holds of
list root circuits, whose output is the root over the leaves of the input and for which every input
gives a proof. -/
theorem prove_then_verify [Backend] (hk : Backend.IsComplete) :
    (∀ (depth : Nat) (f₀ f g : Committed InclusionCircuit) (random : Stream) (b : Build)
      (input : Bytes), InclusionCircuit.Reached depth f₀.computation →
      InclusionCircuit.Reached depth f.computation → Build.generate f₀ random = .ok b →
      f.assign input = .ok g →
      ∃ w : Inclusion, f.computation.opening = some (w.leaf, w.path) ∧ w.path.length = depth ∧
        w.inputBytes = input ∧ g.output = .ok w.leaf.bytes ∧
        b.Decides (w.isConsistent = true) input w.leaf.bytes (b.proveInput f input).1) ∧
    (∀ (leaves : Nat) (f₀ f g : Committed ListRootCircuit) (random : Stream) (b : Build)
      (input : Bytes), ListRootCircuit.Reached leaves f₀.computation →
      ListRootCircuit.Reached leaves f.computation → Build.generate f₀ random = .ok b →
      f.assign input = .ok g →
      ∃ (w : LeafList) (root : Word), w.leaves.length = leaves ∧ w.inputBytes = input ∧
        Tree.root w.leaves = .ok root ∧ g.output = .ok root.bytes ∧
        b.Decides True input root.bytes (b.proveInput f input).1) :=
  ⟨fun _ _ _ _ _ _ _ h₀ h hb hg ↦ InclusionCircuit.proveInput_decides hk h₀.shaped h.shaped hb hg,
    fun _ _ _ _ _ _ _ h₀ h hb hg ↦ ListRootCircuit.proveInput_decides hk h₀.shaped h.shaped hb hg⟩

/-! ### A complete proof system at work -/

/-- There is a build for every computation that can be laid out for proving in some state, if its
system has room in the largest domain and keys are drawn from the stream of seed zero. -/
theorem Build.exists_generate {γ : Type} [Computation γ] [Backend]
    (hkeys : Groth16.DrawsFromSeedZero Backend.setup) {f₀ f : Committed γ} {s : Layout}
    (hm : Mirrored (Computation.define f₀.computation) (Computation.define f.computation))
    (hl : f.layout .proving = .ok s) (hc : s.toR1cs.constraints < 2 ^ 28 - 3) :
    ∃ b, generate f₀ (Stream.ofSeed 0) = .ok b := by
  obtain ⟨s₀, hs₀, he, hi⟩ := Committed.exists_setup hm hl
  have hinst : s₀.toR1cs.instances = 3 := by
    rw [he]
    simp [toR1cs, R1cs.ofRows, instances, hi]
  have hroom : s₀.toR1cs.constraints + s₀.toR1cs.instances ≤ 2 ^ Domain.maxLevels := by
    have hmax : Domain.maxLevels = 28 := rfl
    rw [hinst, he, hmax]
    omega
  obtain ⟨k, hk, hlen⟩ := hkeys _ hroom (by omega)
  exact ⟨⟨s₀.toR1cs, k⟩, generate_ok_iff.2 ⟨s₀, hs₀, rfl, hk, hlen⟩⟩

/-- The input of a witness starts with its root and ends in its index. -/
theorem Inclusion.root_gindex_of_inputBytes (w : Inclusion) :
    w.root.bytes = w.inputBytes.take Word.size ∧
      w.gindex = UInt64.ofNat (Bytes.toNatBE (w.inputBytes.drop Word.size)) := by
  have hlt : w.gindex.toNat % 256 ^ Gindex.size = w.gindex.toNat :=
    Nat.mod_eq_of_lt w.gindex.toNat_lt
  have hl : w.root.bytes.length = Word.size := w.root.length_bytes
  rw [inputBytes, encodeInput, List.take_left' hl, List.drop_left' hl, Gindex.encode,
    Bytes.toNatBE_ofNatBE, hlt, UInt64.ofNat_toNat]
  exact ⟨rfl, rfl⟩

/-- The circuit that shows a witness is one for paths of the length of its own. -/
theorem InclusionCircuit.reached_circuit {w : Inclusion} {c : InclusionCircuit}
    (h : w.circuit = .ok c) : Reached w.path.length c := by
  rw [Inclusion.circuit] at h
  cases hn : new w.path.length with
  | error e => simp [hn, bind, Except.bind] at h
  | ok c₀ => exact .withOpening (.new hn) (by simpa [hn, bind, Except.bind] using h)

/-- The circuit that shows a witness takes the input of the witness, and then computes the leaf
under the demand that the witness is consistent. -/
theorem InclusionCircuit.exists_computes (w : Inclusion) (hd : w.path.length < Gindex.maxDepth) :
    ∃ c₀ c, w.circuit = .ok c₀ ∧ Computation.assign c₀ w.inputBytes = .ok c ∧
      c.opening = some (w.leaf, w.path) ∧
      Computes c (w.isConsistent = true) w.inputBytes w.leaf.bytes := by
  have hlen := w.length_inputBytes
  obtain ⟨c₀, c, hc₀, ha, ho, hv, hs⟩ := circuit_assign_eq w hd hlen
  obtain ⟨hroot, hindex⟩ := w.root_gindex_of_inputBytes
  refine ⟨c₀, c, hc₀, ha, ho, computes ho hv hs hroot hindex (Nat.le_of_eq hlen) ?_⟩
  rw [hlen]
  exact hd

/-- Over the trivial subgroups the inclusion circuit of depth one proves the right one of two leaves
with a key that was made for it, and refuses the same leaf at the index of the left one. The list
root circuit proves the root over both leaves. Both proofs are accepted. -/
theorem prove_then_verify_pair :
    (∃ c b, Inclusion.rightOfPair.circuit = .ok c ∧
      @Build.generate _ _ Groth16.trivialBackend (Committed.ofComputation c) (Stream.ofSeed 0)
        = .ok b ∧
      (∃ q, (@Build.proveInput _ _ Groth16.trivialBackend b (Committed.ofComputation c)
          Inclusion.rightOfPair.inputBytes).1 = .ok q ∧
        @Build.verify Groth16.trivialBackend b q = .ok true) ∧
      ∃ i, (@Build.proveInput _ _ Groth16.trivialBackend b (Committed.ofComputation c)
          (Inclusion.inputBytes { Inclusion.rightOfPair with gindex := 2 })).1
        = .error (.refused (.unsatisfied i))) ∧
    (∃ c b q, ListRootCircuit.new 2 = .ok c ∧
      @Build.generate _ _ Groth16.trivialBackend (Committed.ofComputation c) (Stream.ofSeed 0)
        = .ok b ∧
      (@Build.proveInput _ _ Groth16.trivialBackend b (Committed.ofComputation c)
        (LeafList.inputBytes ⟨[Word.ofNat 0, Word.ofNat 1]⟩)).1 = .ok q ∧
      @Build.verify Groth16.trivialBackend b q = .ok true) := by
  obtain ⟨hinclusion, hlist⟩ :=
    @prove_then_verify Groth16.trivialBackend Groth16.trivialBackend_isComplete
  constructor
  · obtain ⟨c, c', hc, ha, -, hcomp⟩ :=
      InclusionCircuit.exists_computes Inclusion.rightOfPair (by decide)
    have hr : InclusionCircuit.Reached 1 c := InclusionCircuit.reached_circuit hc
    obtain ⟨hc', -⟩ := hr.shaped.assign ha
    obtain ⟨s, hl, -⟩ := hcomp.layout_satisfied_iff (commitment Inclusion.rightOfPair.inputBytes)
      (commitment Inclusion.rightOfPair.leaf.bytes)
    obtain ⟨b, hb⟩ : ∃ b, @Build.generate _ _ Groth16.trivialBackend (Committed.ofComputation c)
        (Stream.ofSeed 0) = .ok b :=
      @Build.exists_generate _ _ Groth16.trivialBackend Groth16.trivialSetup_drawsFromSeedZero _ _
        _ (hr.shaped.define_mirrored hc') hl (Nat.lt_trans (hc'.constraints_lt hl) (by decide))
    -- Every witness of the same leaf and path is shown by the same circuit.
    have hdecides : ∀ w : Inclusion, w.path.length < Gindex.maxDepth → w.circuit = .ok c →
        @Build.Decides Groth16.trivialBackend b (w.isConsistent = true) w.inputBytes w.leaf.bytes
          (@Build.proveInput _ _ Groth16.trivialBackend b (Committed.ofComputation c)
            w.inputBytes).1 := by
      intro w hd hw
      obtain ⟨c₀, c₁, hc₀, htakes, ho, hcomputes⟩ := InclusionCircuit.exists_computes w hd
      obtain rfl : c₀ = c := Except.ok.inj (hc₀.symm.trans hw)
      obtain ⟨w', hopen, -, hin, -, hdecides⟩ := hinclusion 1 (Committed.ofComputation c₀)
        (Committed.ofComputation c₀) _ (Stream.ofSeed 0) b _ hr hr hb (hcomputes.assign_eq htakes)
      obtain ⟨-, -, -, hopened, -⟩ := hr.shaped.assign htakes
      have hopening := Option.some.inj ((ho.symm.trans hopened).trans hopen)
      obtain rfl : w' = w := Inclusion.eq_of_inputBytes hin (congrArg Prod.fst hopening).symm
        (congrArg Prod.snd hopening).symm
      exact hdecides
    obtain ⟨q, hq, -, -, hverify⟩ :=
      (hdecides Inclusion.rightOfPair (by decide) hc).1 Inclusion.isConsistent_rightOfPair
    have hrefused := (hdecides { Inclusion.rightOfPair with gindex := 2 } (by decide) hc).2 (by
      decide +kernel)
    exact ⟨c, b, hc, hb, ⟨q, hq, hverify⟩, hrefused⟩
  · have hlen : (LeafList.inputBytes ⟨[Word.ofNat 0, Word.ofNat 1]⟩).length = 2 * Word.size := by
      decide +kernel
    have hr : ListRootCircuit.Reached 2 ⟨2, Buffer.empty (2 * Word.size)⟩ := .new rfl
    have hbuffer : (Buffer.empty (2 * Word.size)).assign
        (LeafList.inputBytes ⟨[Word.ofNat 0, Word.ofNat 1]⟩)
          = .ok ⟨2 * Word.size, some (LeafList.inputBytes ⟨[Word.ofNat 0, Word.ofNat 1]⟩), []⟩ :=
      Buffer.assign_ok_iff.2 ⟨hlen, rfl⟩
    have ha : Computation.assign (⟨2, Buffer.empty (2 * Word.size)⟩ : ListRootCircuit)
        (LeafList.inputBytes ⟨[Word.ofNat 0, Word.ofNat 1]⟩) = .ok ⟨2, ⟨2 * Word.size,
          some (LeafList.inputBytes ⟨[Word.ofNat 0, Word.ofNat 1]⟩), []⟩⟩ := by
      simp only [Computation.assign, ListRootCircuit.assign, hbuffer]
      rfl
    obtain ⟨hc', -⟩ := hr.shaped.assign ha
    have hcomp := ListRootCircuit.computes (c := ⟨2, ⟨2 * Word.size,
      some (LeafList.inputBytes ⟨[Word.ofNat 0, Word.ofNat 1]⟩), []⟩⟩) rfl hlen (by decide)
      (Nat.le_of_eq hlen.symm)
    obtain ⟨s, hl, -⟩ := hcomp.layout_satisfied_iff (commitment []) (commitment [])
    obtain ⟨b, hb⟩ : ∃ b, @Build.generate _ _ Groth16.trivialBackend (Committed.ofComputation
        (⟨2, Buffer.empty (2 * Word.size)⟩ : ListRootCircuit)) (Stream.ofSeed 0) = .ok b :=
      @Build.exists_generate _ _ Groth16.trivialBackend Groth16.trivialSetup_drawsFromSeedZero _ _
        _ (hr.shaped.define_mirrored hc') hl (hc'.constraints_lt (by decide) hl)
    obtain ⟨_, root, -, -, -, -, hdecides, -⟩ := hlist 2 (Committed.ofComputation _)
      (Committed.ofComputation _) _ (Stream.ofSeed 0) b _ hr hr hb (hcomp.assign_eq ha)
    obtain ⟨q, hq, -, -, hverify⟩ := hdecides trivial
    exact ⟨_, b, q, rfl, hb, hq, hverify⟩

end TreeProver
