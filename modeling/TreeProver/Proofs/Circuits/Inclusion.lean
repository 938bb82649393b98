import TreeProver.Circuits.Inclusion
import TreeProver.Proofs.Circuits.Statement
import TreeProver.Proofs.Layout.Path

/-!
# What the inclusion circuit decides

The inclusion circuit computes the leaf from a root and an index under the demand that the inclusion
witness is consistent. Its statement is therefore satisfied exactly by consistent witnesses with the
right commitments, for every depth, every input and every index.
-/

namespace TreeProver

open Circuit Layout Synth

namespace Inclusion

/-- A witness whose input is the given one, with the given leaf and path. -/
theorem exists_inputBytes_eq (leaf : Word) (path : List Word) {input : Bytes}
    (h : input.length = inputSize) :
    ∃ w : Inclusion, w.leaf = leaf ∧ w.path = path ∧ w.inputBytes = input ∧
      w.root.bytes = input.take Word.size ∧
      w.gindex = UInt64.ofNat (Bytes.toNatBE (input.drop Word.size)) := by
  have hr : (input.take Word.size).length = 32 := by
    rw [List.length_take, h]
    rfl
  have hd : (input.drop Word.size).length = 8 := by
    rw [List.length_drop, h]
    rfl
  have hlt := Bytes.toNatBE_lt (input.drop Word.size)
  rw [hd] at hlt
  have hg := Bytes.ofNatBE_toNatBE (input.drop Word.size)
  rw [hd] at hg
  refine ⟨⟨⟨input.take Word.size, hr⟩, leaf, UInt64.ofNat _, path⟩, rfl, rfl, ?_, rfl, rfl⟩
  rw [inputBytes, encodeInput, Gindex.encode, UInt64.toNat_ofNat_of_lt' hlt, Gindex.size, hg,
    List.take_append_drop]

/-- The input of a witness is a root and an index. -/
theorem length_inputBytes (w : Inclusion) : w.inputBytes.length = inputSize := by
  rw [inputBytes, encodeInput, List.length_append, Word.length_bytes]
  rfl

/-- An inclusion input determines its root and its index. -/
theorem encodeInput_inj {root root' : Word} {g g' : UInt64}
    (h : encodeInput root g = encodeInput root' g') : root = root' ∧ g = g' := by
  obtain ⟨hr, hg⟩ := List.append_inj h (root.length_bytes.trans root'.length_bytes.symm)
  have hn := congrArg Bytes.toNatBE hg
  have hlt (x : UInt64) : x.toNat % 256 ^ Gindex.size = x.toNat := Nat.mod_eq_of_lt x.toNat_lt
  rw [Gindex.encode, Gindex.encode, Bytes.toNatBE_ofNatBE, Bytes.toNatBE_ofNatBE, hlt, hlt] at hn
  exact ⟨Word.ext hr, UInt64.toNat_inj.1 hn⟩

/-- A witness is known by its input and its private part. -/
theorem eq_of_inputBytes {w w' : Inclusion} (h : w.inputBytes = w'.inputBytes)
    (hleaf : w.leaf = w'.leaf) (hpath : w.path = w'.path) : w = w' := by
  obtain ⟨hr, hg⟩ := encodeInput_inj h
  cases w
  cases w'
  simp_all

/-- The right one of two leaves under the root of both. -/
def rightOfPair : Inclusion :=
  ⟨sha256Pair (Word.ofNat 0) (Word.ofNat 1), Word.ofNat 1, 3, [Word.ofNat 0]⟩

/-- The path leads from the leaf to the root. -/
theorem isConsistent_rightOfPair : rightOfPair.isConsistent = true :=
  (isConsistent_iff _).2 ⟨rfl, rfl⟩

end Inclusion

namespace InclusionCircuit

/-- The inclusion circuit computes the leaf under the demand that the witness of its input is
consistent. All bits that the depth of the path can name have to be in the input. -/
theorem computes {c : InclusionCircuit} {w : Inclusion} {input : Bytes}
    (ho : c.opening = some (w.leaf, w.path)) (hv : c.input.values = some input)
    (hl : input.length = c.input.size) (hr : w.root.bytes = input.take Word.size)
    (hg : w.gindex = UInt64.ofNat (Bytes.toNatBE (input.drop Word.size)))
    (hs : input.length ≤ Inclusion.inputSize)
    (hd : w.path.length < 8 * (input.length - Word.size)) :
    Computes c (w.isConsistent = true) input w.leaf.bytes := by
  intro s h
  have hs40 : input.length ≤ 40 := hs
  have hd32 : w.path.length < 8 * (input.length - 32) := hd
  obtain ⟨wires, s₁, h₁, hin, hw⟩ := Buffer.alloc_lays h hv hl
  have hwl : wires.length = input.length := hin.length_eq
  have hrl : (wires.take Word.size).length = 32 := by
    rw [List.length_take, hwl]
    exact Nat.min_eq_left (by omega)
  have hgl : (wires.drop Word.size).length = input.length - 32 := by
    rw [List.length_drop, hwl]
    rfl
  have h₂ := Lays.ofExcept h₁.grows.filled (Node.ofBytes_eq hrl)
  have hg8 : (wires.drop Word.size).length ≤ 8 := by omega
  obtain ⟨i, hi, hbits⟩ := Index.ofBytes_eq hg8
  have h₃ := Lays.ofExcept h₁.grows.filled hi
  obtain ⟨leaf, s₄, h₄, hleaf, -⟩ := Node.alloc_lays h₁.grows.filled .witness w.leaf
  obtain ⟨path, s₅, h₅, hpath⟩ := Node.allocAll_lays h₄.grows.filled .witness w.path
  have k₅ := h₄.grows.keeps.trans h₅.grows.keeps
  -- The root and the index are the two parts of the input.
  have hroot : s₁.NodeIs ⟨wires.take Word.size, hrl⟩ w.root := by
    rw [NodeIs, hr]
    exact List.forall₂_take Word.size hin
  have hindex : s₁.IndexIs i w.gindex := by
    rw [hg]
    exact Index.indexIs_of_bytes (List.forall₂_drop Word.size hin) (by omega) hbits
  have hwt : ∀ b ∈ wires.take Word.size, b.IsWired := fun b hb ↦ hw b (List.mem_of_mem_take hb)
  have hwd : ∀ b ∈ wires.drop Word.size, b.IsWired := fun b hb ↦ hw b (List.mem_of_mem_drop hb)
  have hpl : path.length = w.path.length := hpath.length_eq
  have hmark : ∀ b ∈ i.bits[path.length]?, b.IsWire := by
    refine Index.isWire_of_lt hwd hbits ?_
    omega
  have hmax : path.length < Gindex.maxDepth := by
    have he : Gindex.maxDepth = 64 := rfl
    omega
  obtain ⟨s₆, h₆⟩ := Node.verifyAt_lays h₅.grows.filled (k₅.nodeIs hroot)
    (h₅.grows.keeps.nodeIs hleaf) hpath (k₅.bitsAre hindex) hmax hwt hmark
    (Index.isWire_or_zero hwd hbits)
  have k₆ := k₅.trans h₆.grows.keeps
  have hp := Lays.pure h₆.grows.filled (Ports.mk wires leaf.bytes)
  refine ⟨⟨wires, leaf.bytes⟩, s₆, ?_, k₆.bytesAre hin,
    (h₅.grows.keeps.trans h₆.grows.keeps).bytesAre hleaf⟩
  have hdef : Computation.define c = (do
      let buffer ← c.input.alloc
      let root ← liftM (Node.ofBytes (buffer.wires.take Word.size))
      let gindex ← liftM (Index.ofBytes (buffer.wires.drop Word.size))
      let leaf ← Node.alloc .witness (some w.leaf)
      let path ← (w.path.map some).mapM (Node.alloc .witness)
      Node.verifyAt root leaf path gindex
      pure ⟨buffer.wires, leaf.bytes⟩) := by
    simp only [Computation.define, define, ho, optionalPath, Option.map_some]
  rw [hdef]
  refine (h₁.bind (h₂.bind (h₃.bind (h₄.bind (h₅.bind (h₆.bind hp)))))).congr ?_
  rw [Inclusion.isConsistent_iff, hpl]
  simp

/-- The circuit that shows a witness takes the input of the witness. -/
theorem circuit_assign_eq (w : Inclusion) {input : Bytes} (hd : w.path.length < Gindex.maxDepth)
    (hl : input.length = Inclusion.inputSize) :
    ∃ c₀ c, w.circuit = .ok c₀ ∧ c₀.assign input = .ok c ∧ c.opening = some (w.leaf, w.path) ∧
      c.input.values = some input ∧ input.length = c.input.size := by
  have hn : new w.path.length = .ok ⟨w.path.length, none, Buffer.empty Inclusion.inputSize⟩ :=
    if_neg (Nat.not_le.2 hd)
  have hb : (Buffer.empty Inclusion.inputSize).assign input
      = .ok ⟨Inclusion.inputSize, some input, []⟩ := Buffer.assign_ok_iff.2 ⟨hl, rfl⟩
  refine ⟨⟨w.path.length, some (w.leaf, w.path), Buffer.empty Inclusion.inputSize⟩,
    ⟨w.path.length, some (w.leaf, w.path), ⟨Inclusion.inputSize, some input, []⟩⟩, ?_, ?_,
    rfl, rfl, hl⟩
  · rw [Inclusion.circuit, hn]
    exact if_pos rfl
  · simp only [assign, hb]
    rfl

/-- For every leaf, every path that is not too deep and every input of a root and an index, the
circuit is made and takes the input. Its statement can then be laid out with any two commitments,
and is satisfied exactly when the witness is consistent and both commitments are, as scalars, those
to the input and to the leaf. With the commitments that taking the input records, it is satisfied
exactly when the witness is consistent. -/
theorem statement_isSatisfied_iff_isConsistent (leaf : Word) (path : List Word) (input : Bytes)
    (hd : path.length < Gindex.maxDepth) (hl : input.length = Inclusion.inputSize) :
    ∃ w : Inclusion, w.leaf = leaf ∧ w.path = path ∧ w.inputBytes = input ∧
      ∃ c₀ c, w.circuit = .ok c₀ ∧ c₀.assign input = .ok c ∧
        (∀ inputHash outputHash : Word, ∃ s,
          (⟨some inputHash, some outputHash, c⟩ : Committed InclusionCircuit).layout .proving
            = .ok s
          ∧ s.isSatisfied = .ok (decide (w.isConsistent = true
            ∧ inputHash.toScalar = (commitment input).toScalar
            ∧ outputHash.toScalar = (commitment leaf.bytes).toScalar))) ∧
        ∃ f s, (Committed.ofComputation c₀).assign input = .ok f ∧ f.layout .proving = .ok s ∧
          s.isSatisfied = .ok w.isConsistent := by
  obtain ⟨w, rfl, rfl, hw, hr, hg⟩ := Inclusion.exists_inputBytes_eq leaf path hl
  obtain ⟨c₀, c, hc₀, hc, ho, hv, hs⟩ := circuit_assign_eq w hd hl
  have hcomp : Computes c (w.isConsistent = true) input w.leaf.bytes := by
    refine computes ho hv hs hr hg (Nat.le_of_eq hl) ?_
    rw [hl]
    exact hd
  refine ⟨w, rfl, rfl, hw, c₀, c, hc₀, hc, fun inputHash outputHash ↦ ?_, ?_⟩
  · exact hcomp.layout_isSatisfied inputHash outputHash decide_eq_true_iff.symm
  · obtain ⟨s, hs, hsat⟩ := hcomp.layout_isSatisfied (commitment input) (commitment w.leaf.bytes)
      (b := w.isConsistent) (by simp)
    exact ⟨_, s, hcomp.assign_eq hc, hs, hsat⟩

/-- The statement about the right one of two leaves is satisfied, with the commitments that are
recorded as with the same ones given, but not with another word in place of the first. -/
theorem statement_isSatisfied_right_of_pair :
    let w := Inclusion.rightOfPair
    w.path.length < Gindex.maxDepth ∧ w.inputBytes.length = Inclusion.inputSize ∧
    ∃ c₀ c, w.circuit = .ok c₀ ∧ c₀.assign w.inputBytes = .ok c ∧
      (∃ s, (⟨some (commitment w.inputBytes), some (commitment w.leaf.bytes), c⟩ :
        Committed InclusionCircuit).layout .proving = .ok s ∧ s.isSatisfied = .ok true) ∧
      (∃ s, (⟨some (Word.ofNat 2), some (commitment w.leaf.bytes), c⟩ :
        Committed InclusionCircuit).layout .proving = .ok s ∧ s.isSatisfied = .ok false) ∧
      ∃ f s, (Committed.ofComputation c₀).assign w.inputBytes = .ok f ∧
        f.layout .proving = .ok s ∧ s.isSatisfied = .ok true := by
  intro w
  have hd : w.path.length < Gindex.maxDepth := by decide
  have hconsistent : w.isConsistent = true := Inclusion.isConsistent_rightOfPair
  have hother : (Word.ofNat 2).toScalar ≠ (commitment w.inputBytes).toScalar := by decide +kernel
  clear_value w
  obtain ⟨w', hleaf, hpath, hin, c₀, c, hc₀, hc, hgiven, f, s, hf, hs, hsat⟩ :=
    statement_isSatisfied_iff_isConsistent w.leaf w.path w.inputBytes hd w.length_inputBytes
  obtain rfl := Inclusion.eq_of_inputBytes hin hleaf hpath
  refine ⟨hd, w'.length_inputBytes, c₀, c, hc₀, hc, ?_, ?_, f, s, hf, hs, hconsistent ▸ hsat⟩
  · obtain ⟨s, hs, hsat⟩ := hgiven (commitment w'.inputBytes) (commitment w'.leaf.bytes)
    exact ⟨s, hs, by simpa [hconsistent] using hsat⟩
  · obtain ⟨s, hs, hsat⟩ := hgiven (Word.ofNat 2) (commitment w'.leaf.bytes)
    exact ⟨s, hs, by simpa [hother] using hsat⟩

end InclusionCircuit

end TreeProver
