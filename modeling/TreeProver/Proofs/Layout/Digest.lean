import TreeProver.Circuit.Digest
import TreeProver.Proofs.Binary.Truncation
import TreeProver.Proofs.Layout.Nodes

/-!
# Laying out hashes

Hashing bytes with values succeeds and makes no demand of its own: the witnesses for the digest get
the digest as values, so the gate on them holds. What comes out stands for the digest, and its low
bits for the commitment.
-/

namespace TreeProver.Circuit

open scoped Fin.CommRing

open Layout Synth

variable {s t : Layout}

/-- A byte of fresh witnesses is wired and stands for the value that they are given. -/
private theorem witnessByte_lays (h : s.Filled) (x : UInt8) :
    ∃ b t, Lays (witnessByte (some x)) s True b t ∧ t.ByteIs b x ∧ b.IsWired := by
  obtain ⟨bs, t, hl, hs, hw⟩ := mapM_lays (q := Bit.IsWire)
    (f := fun v ↦ do
      pure (Bit.wire (← newWitness (some (scalarOfBool v))) false))
    Keeps.bitIs (fun {s} v hf ↦ by
      obtain ⟨t, ht, hv⟩ := newWitness_lays hf (scalarOfBool v)
      have hp := Lays.pure ht.grows.filled (Bit.wire (.witness s.witnesses) false)
      exact ⟨_, t, (ht.bind hp).congr (by simp), bitIs_wire.2 hv, by simp [Bit.IsWire]⟩)
    h (Octet.ofByte x).toList
  obtain ⟨b, rfl, hb⟩ := octet_mapM_lays hl
  exact ⟨b, t, hb, hs, hw⟩

/-- Hashing bytes with values demands nothing and gives the digest: a constant if all of the message
is constant, and otherwise wires. -/
theorem sha256_lays_known (h : s.Filled) {message : List Byte} {m : Bytes}
    (hm : s.BytesAre message m) :
    ∃ n t, Lays (Synth.sha256 message) s True n t ∧ t.NodeIs n (TreeProver.sha256 m) ∧
      ∀ b ∈ n.bytes, b.Known (message.all Byte.isConstant) := by
  have hd : (s.bytes? message).map TreeProver.sha256 = some (TreeProver.sha256 m) := by
    rw [hm.bytes?, Option.map_some]
  -- The digest of anything but constants is fresh witnesses under a gate.
  have hnew : ∃ n t, Lays (do
      let bytes ← ((TreeProver.sha256 m).bytes.map some).mapM witnessByte
      constrain (.digest message bytes)
      Node.ofBytes bytes) s True n t ∧ t.NodeIs n (TreeProver.sha256 m) ∧
        ∀ b ∈ n.bytes, b.IsWired := by
    obtain ⟨bs, t, hl, hb, hw⟩ := mapM_lays (f := fun x ↦ witnessByte (some x))
      (q := Byte.IsWired) Keeps.byteIs (fun x hf ↦ witnessByte_lays hf x) h
      (TreeProver.sha256 m).bytes
    have hlen : bs.length = 32 := hb.length_eq.trans (TreeProver.sha256 m).length_bytes
    have hbt : t.BytesAre bs (TreeProver.sha256 m).bytes := hb
    have hmt := hl.grows.keeps.bytesAre hm
    obtain ⟨u, hu⟩ := constrain_lays hl.grows.filled (g := .digest message bs) (p := True)
      ⟨⟨m, hmt⟩, _, hb⟩ (by simp [holds?, hmt.bytes?, hbt.bytes?])
    have hn := Lays.ofExcept hu.grows.filled (Node.ofBytes_eq hlen)
    refine ⟨⟨bs, hlen⟩, u, ?_, hu.grows.keeps.bytesAre hb, hw⟩
    rw [List.mapM_map]
    exact (hl.bind (hu.bind hn)).congr (by simp)
  obtain ⟨n, t, hl, hn, hw⟩ := hnew
  cases hc : message.all Byte.isConstant with
  | true =>
    refine ⟨Node.constant (TreeProver.sha256 m), s, .get ?_, Node.nodeIs_constant _, ?_⟩
    · simp only [hd, hc]
      exact .pure h _
    · simp only [Node.constant, List.forall_mem_map]
      exact fun x _ ↦ Byte.known_constant x
  | false =>
    refine ⟨n, t, .get ?_, hn, fun b hb ↦ (hw b hb).known⟩
    simp only [hd, hc, Option.isNone_some, Bool.false_eq_true, and_false, ↓reduceIte]
    exact hl

/-- Hashing bytes with values demands nothing and gives the digest. -/
theorem sha256_lays (h : s.Filled) {message : List Byte} {m : Bytes}
    (hm : s.BytesAre message m) :
    ∃ n t, Lays (Synth.sha256 message) s True n t ∧ t.NodeIs n (TreeProver.sha256 m) := by
  obtain ⟨n, t, hl, hn, -⟩ := sha256_lays_known h hm
  exact ⟨n, t, hl, hn⟩

/-- Hashing two nodes gives the digest of their words. -/
theorem sha256Pair_lays (h : s.Filled) {a b : Node} {x y : Word} (ha : s.NodeIs a x)
    (hb : s.NodeIs b y) :
    ∃ n t, Lays (Synth.sha256Pair a b) s True n t ∧ t.NodeIs n (TreeProver.sha256Pair x y) :=
  sha256_lays h (List.rel_append ha hb)

/-- The low bits of a node have its truncated word as value. -/
theorem Node.eval?_low {n : Node} {w : Word} (h : s.NodeIs n w) (bits : Nat) :
    s.eval? (n.low bits) = some (w.truncate bits).toScalar := by
  have hb : s.BitsAre (n.bits.take bits) (w.bits.take bits) :=
    List.forall₂_take bits h.bits
  rw [low, hb.eval?_sum, Octet.bitsToNat_take, Word.bitsToNat_bits, ← Word.toNat_truncate_eq_mod]
  rfl

/-- The low bits of the digest of bytes have the truncated digest of their values as value. -/
theorem truncated_lays (h : s.Filled) {message : List Byte} {m : Bytes} (hm : s.BytesAre message m)
    (bits : Nat) :
    ∃ f t, Lays (Synth.commitment message bits) s True f t ∧
      t.eval? f = some (hashAndTruncate m bits).toScalar := by
  obtain ⟨n, t, hl, hn⟩ := sha256_lays h hm
  have hp := Lays.pure hl.grows.filled (n.low bits)
  exact ⟨_, t, (hl.bind hp).congr (by simp), Node.eval?_low hn bits⟩

/-- The commitment to bytes inside a circuit has the commitment to their values as value. -/
theorem commitment_lays (h : s.Filled) {message : List Byte} {m : Bytes}
    (hm : s.BytesAre message m) :
    ∃ f t, Lays (Synth.commitment message commitmentBits) s True f t ∧
      t.eval? f = some (TreeProver.commitment m).toScalar :=
  truncated_lays h hm commitmentBits

/-- Tying the digest of bytes to a column demands that the column holds the commitment. -/
theorem equate_commitment_lays (h : s.Filled) {message : List Byte} {m : Bytes} {c : Column}
    {x : Fr} (hm : s.BytesAre message m) (hc : s.value? c = some x) (ho : c ≠ .one) :
    ∃ t, Lays (do equate (← Synth.commitment message commitmentBits) (Form.column c)) s
      (x = (TreeProver.commitment m).toScalar) () t := by
  obtain ⟨f, t, hl, hf⟩ := commitment_lays h hm
  have hv : t.eval? (Form.column c) = some x := (eval?_column c).trans (hl.grows.keeps c x hc)
  obtain ⟨u, hu⟩ := equate_lays hl.grows.filled hf hv
    (by simp [Form.isConstant, Form.column, ho])
  exact ⟨u, (hl.bind hu).congr (by rw [true_and, eq_comm])⟩

end TreeProver.Circuit
