import TreeProver.Circuits.ListRoot
import TreeProver.Circuits.Mask
import TreeProver.Proofs.Circuits.Inclusion
import TreeProver.Proofs.Layout.Failure

/-!
# Faithful computations

A computation keeps its contract when it puts the input that it has taken on its ports, and its
output depends on nothing but that input. It may still be impossible to lay out, but then it is so
everywhere. The circuits of the library that depend on their input are faithful.
-/

namespace TreeProver

open Circuit Layout Synth

/-- After taking an input the computation either can be laid out nowhere, or it computes one output
from that input under one demand, wherever it is laid out. -/
class Faithful (γ : Type) [Computation γ] : Prop where
  computes : ∀ {c c' : γ} {input : Bytes}, Computation.assign c input = .ok c' →
    (∀ s : Layout, s.Filled → Fails (Computation.define c') s) ∨
      ∃ p output, Computes c' p input output

namespace MaskCircuit

/-- The mask circuit computes the masked input and demands nothing. -/
theorem computes {c : MaskCircuit} {input : Bytes} (hv : c.input.values = some input)
    (hl : input.length = c.input.size) :
    Computes c True input (input.map (· ^^^ c.mask)) := by
  intro s h
  obtain ⟨wires, t, ht, hin, -⟩ := Buffer.alloc_lays h hv hl
  have hp := Lays.pure ht.grows.filled (Ports.mk wires (wires.map (Byte.mask c.mask)))
  refine ⟨_, t, (ht.bind hp).congr (by simp), hin, ?_⟩
  simp only [BytesAre, List.forall₂_map_left_iff, List.forall₂_map_right_iff]
  exact hin.imp fun _ _ hx ↦ Byte.mask_byteIs hx c.mask

instance : Faithful MaskCircuit where
  computes {c c' input} h := by
    simp only [Computation.assign, assign, bind, Except.bind] at h
    split at h
    · contradiction
    · next b hb =>
      obtain ⟨hl, rfl⟩ := Buffer.assign_ok_iff.1 hb
      obtain rfl := Except.ok.inj h
      exact .inr ⟨_, _, computes rfl hl⟩

end MaskCircuit

namespace ListRootCircuit

/-- Whole words taken off the front of a byte string. -/
def wordsOf : (count : Nat) → Bytes → List Word
  | 0, _ => []
  | count + 1, bs => (Word.ofBytes? (bs.take Word.size)).getD default
    :: wordsOf count (bs.drop Word.size)

/-- Nodes taken off bytes that are long enough stand for the words taken off their values. -/
theorem nodes_eq {s : Layout} (count : Nat) {bs : List Byte} {xs : Bytes} (h : s.BytesAre bs xs)
    (hl : count * Word.size ≤ bs.length) :
    ∃ ns, nodes count bs = .ok ns ∧ ns.length = count ∧
      List.Forall₂ s.NodeIs ns (wordsOf count xs) := by
  induction count generalizing bs xs with
  | zero => exact ⟨[], rfl, rfl, .nil⟩
  | succ count ih =>
    have hs : Word.size = 32 := rfl
    rw [hs, Nat.succ_mul] at hl
    have ht : (bs.take Word.size).length = 32 := by
      rw [List.length_take, hs]
      omega
    have hx : (xs.take Word.size).length = 32 :=
      (List.forall₂_take Word.size h).length_eq.symm.trans ht
    obtain ⟨ns, hns, hlen, hw⟩ := ih (List.forall₂_drop Word.size h)
      (by rw [List.length_drop, hs]; omega)
    refine ⟨⟨bs.take Word.size, ht⟩ :: ns, ?_, by simp [hlen], .cons ?_ hw⟩
    · simp only [nodes, Node.ofBytes_eq ht, hns, bind, Except.bind]
    · have hw : Word.ofBytes? (xs.take Word.size) = some ⟨xs.take Word.size, hx⟩ := dif_pos hx
      rw [hw]
      exact List.forall₂_take Word.size h

/-- Nodes are not taken off bytes that are too short. -/
theorem nodes_error (count : Nat) {bs : List Byte} (hl : bs.length < count * Word.size) :
    ∃ e, nodes count bs = .error e := by
  induction count generalizing bs with
  | zero => omega
  | succ count ih =>
    have hs : Word.size = 32 := rfl
    rw [hs, Nat.succ_mul] at hl
    by_cases ht : (bs.take Word.size).length = 32
    · have hd : (bs.drop Word.size).length < count * Word.size := by
        rw [List.length_take, hs] at ht
        rw [List.length_drop, hs]
        omega
      obtain ⟨e, he⟩ := ih hd
      exact ⟨e, by simp only [nodes, Node.ofBytes_eq ht, he, bind, Except.bind]⟩
    · have hn : Node.ofBytes (bs.take Word.size)
          = .error (.invalidLength "digest" Word.size (bs.take Word.size).length) := dif_neg ht
      exact ⟨.invalidLength "digest" Word.size (bs.take Word.size).length, by
        simp only [nodes, hn, bind, Except.bind]⟩

/-- The list root circuit computes the root of the leaves in its input and demands nothing. -/
theorem computes {c : ListRootCircuit} {input : Bytes} (hv : c.input.values = some input)
    (hl : input.length = c.input.size) (hc : Tree.isPowerOfTwo c.leaves = true)
    (hs : c.leaves * Word.size ≤ input.length) :
    Computes c True input
      ((Tree.layerAbove c.leaves.log2 (wordsOf c.leaves input)).headD default).bytes := by
  intro s h
  obtain ⟨wires, s₁, h₁, hin, -⟩ := Buffer.alloc_lays h hv hl
  obtain ⟨leaves, hns, hlen, hw⟩ := nodes_eq c.leaves hin (hin.length_eq ▸ hs)
  have h₂ := Lays.ofExcept h₁.grows.filled hns
  obtain ⟨root, s₃, h₃, hr⟩ := Node.root_lays h₁.grows.filled hw hc (Nat.le_of_eq hlen.symm)
  rw [List.take_of_length_le (Nat.le_of_eq (hw.length_eq.symm.trans hlen))] at hr
  have hp := Lays.pure h₃.grows.filled (Ports.mk wires root.bytes)
  exact ⟨⟨wires, root.bytes⟩, s₃, (h₁.bind (h₂.bind (h₃.bind hp))).congr (by simp),
    h₃.grows.keeps.bytesAre hin, hr⟩

/-- With values of the right size the list root circuit either can be laid out nowhere or computes a
root. -/
theorem fails_or_computes {c : ListRootCircuit} {input : Bytes}
    (hv : c.input.values = some input) (hl : input.length = c.input.size) :
    (∀ s : Layout, s.Filled → Fails (Computation.define c) s) ∨
      ∃ p output, Computes c p input output := by
  by_cases hs : c.leaves * Word.size ≤ input.length
  · by_cases hc : Tree.isPowerOfTwo c.leaves = true
    · exact .inr ⟨_, _, computes hv hl hc hs⟩
    · left
      intro s h
      obtain ⟨wires, s₁, h₁, hin, -⟩ := Buffer.alloc_lays h hv hl
      obtain ⟨leaves, hns, -, -⟩ := nodes_eq c.leaves hin (hin.length_eq ▸ hs)
      have h₂ := Lays.ofExcept h₁.grows.filled hns
      have hr : Fails (Node.root leaves c.leaves) s₁ := by
        simp only [Node.root, hc, Bool.false_eq_true, not_false_eq_true, ↓reduceIte]
        exact Fails.bind (Fails.throw _)
      exact h₁.bind_fails (h₂.bind_fails (Fails.bind hr))
  · left
    intro s h
    obtain ⟨wires, s₁, h₁, hin, -⟩ := Buffer.alloc_lays h hv hl
    have hshort : wires.length < c.leaves * Word.size := hin.length_eq ▸ Nat.lt_of_not_le hs
    obtain ⟨e, he⟩ := nodes_error c.leaves hshort
    exact h₁.bind_fails (Fails.bind (Fails.ofExcept he))

instance : Faithful ListRootCircuit where
  computes {c c' input} h := by
    simp only [Computation.assign, assign, bind, Except.bind] at h
    split at h
    · contradiction
    · next b hb =>
      obtain ⟨hl, rfl⟩ := Buffer.assign_ok_iff.1 hb
      obtain rfl := Except.ok.inj h
      exact fails_or_computes rfl hl

end ListRootCircuit

namespace InclusionCircuit

variable {c : InclusionCircuit} {leaf : Word} {path : List Word} {input : Bytes} {s : Layout}

/-- Without enough bytes for a root the inclusion circuit can be laid out nowhere. -/
theorem fails_of_short_root (hv : c.input.values = some input) (hl : input.length = c.input.size)
    (hr : (input.take Word.size).length ≠ 32) (h : s.Filled) :
    Fails (Computation.define c) s := by
  obtain ⟨wires, s₁, h₁, hin, -⟩ := Buffer.alloc_lays h hv hl
  have ht : (wires.take Word.size).length ≠ 32 := by
    rw [List.length_take, hin.length_eq, ← List.length_take]
    exact hr
  exact h₁.bind_fails (Fails.bind (Fails.ofExcept (Node.ofBytes_error ht)))

/-- With more bytes than an index has the inclusion circuit can be laid out nowhere. -/
theorem fails_of_long_index (hv : c.input.values = some input) (hl : input.length = c.input.size)
    (hs : ¬ input.length ≤ Inclusion.inputSize) (h : s.Filled) :
    Fails (Computation.define c) s := by
  have hws : Word.size = 32 := rfl
  have hs40 : ¬ input.length ≤ 40 := hs
  obtain ⟨wires, s₁, h₁, hin, -⟩ := Buffer.alloc_lays h hv hl
  have hwl : wires.length = input.length := hin.length_eq
  have ht : (wires.take Word.size).length = 32 := by
    rw [List.length_take, hwl, hws]
    omega
  have hd : 8 < (wires.drop Word.size).length := by
    rw [List.length_drop, hwl, hws]
    omega
  have h₂ := Lays.ofExcept h₁.grows.filled (Node.ofBytes_eq ht)
  exact h₁.bind_fails (h₂.bind_fails (Fails.bind (Fails.ofExcept (Index.ofBytes_error hd))))

/-- Where the input lacks the highest bit that the path asks for, the inclusion circuit can be laid
out nowhere. -/
theorem fails_of_deep_path (ho : c.opening = some (leaf, path)) (hv : c.input.values = some input)
    (hl : input.length = c.input.size) (hr : (input.take Word.size).length = 32)
    (hs : input.length ≤ Inclusion.inputSize)
    (hd : ¬ path.length < 8 * (input.length - Word.size)) (h : s.Filled) :
    Fails (Computation.define c) s := by
  have hws : Word.size = 32 := rfl
  have hs40 : input.length ≤ 40 := hs
  obtain ⟨wires, s₁, h₁, hin, -⟩ := Buffer.alloc_lays h hv hl
  have hwl : wires.length = input.length := hin.length_eq
  rw [List.length_take, hws] at hr
  rw [hws] at hd
  have ht : (wires.take Word.size).length = 32 := by
    rw [List.length_take, hwl, hws]
    exact hr
  have hdl : (wires.drop Word.size).length = input.length - 32 := by
    rw [List.length_drop, hwl, hws]
  have h₂ := Lays.ofExcept h₁.grows.filled (Node.ofBytes_eq ht)
  have hg8 : (wires.drop Word.size).length ≤ 8 := by omega
  obtain ⟨i, hi, hbits⟩ := Index.ofBytes_eq hg8
  have h₃ := Lays.ofExcept h₁.grows.filled hi
  obtain ⟨leaf', s₄, h₄, -, -⟩ := Node.alloc_lays h₁.grows.filled .witness leaf
  obtain ⟨path', s₅, h₅, hpath⟩ := Node.allocAll_lays h₄.grows.filled .witness path
  have hf : Fails (Node.restoreAt leaf' path' i) s₅ := by
    refine Node.restoreAt_fails (Index.eq_zero_of_le hbits ?_)
    rw [hdl, hpath.length_eq]
    omega
  simp only [Computation.define, define, ho, optionalPath, Option.map_some]
  exact h₁.bind_fails (h₂.bind_fails (h₃.bind_fails (h₄.bind_fails (h₅.bind_fails
    (Fails.bind (Fails.bind hf))))))

/-- With values of the right size and an opening the inclusion circuit either can be laid out
nowhere or computes the leaf. -/
theorem fails_or_computes (ho : c.opening = some (leaf, path)) (hv : c.input.values = some input)
    (hl : input.length = c.input.size) :
    (∀ s : Layout, s.Filled → Fails (Computation.define c) s) ∨
      ∃ p output, Computes c p input output := by
  by_cases hr : (input.take Word.size).length = 32
  · by_cases hs : input.length ≤ Inclusion.inputSize
    · by_cases hd : path.length < 8 * (input.length - Word.size)
      · let w : Inclusion := ⟨⟨input.take Word.size, hr⟩, leaf,
          UInt64.ofNat (Bytes.toNatBE (input.drop Word.size)), path⟩
        exact .inr ⟨_, _, computes (w := w) ho hv hl rfl rfl hs hd⟩
      · exact .inl fun _ ↦ fails_of_deep_path ho hv hl hr hs hd
    · exact .inl fun _ ↦ fails_of_long_index hv hl hs
  · exact .inl fun _ ↦ fails_of_short_root hv hl hr

instance : Faithful InclusionCircuit where
  computes {c c' input} h := by
    simp only [Computation.assign, assign] at h
    split at h
    · contradiction
    · next opening ho =>
      simp only [bind, Except.bind] at h
      split at h
      · contradiction
      · next b hb =>
        obtain ⟨hl, rfl⟩ := Buffer.assign_ok_iff.1 hb
        obtain rfl := Except.ok.inj h
        exact fails_or_computes ho rfl hl

end InclusionCircuit

end TreeProver
