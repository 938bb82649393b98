import TreeProver.Proofs.Layout.Bytes

/-!
# Laying out nodes and indices

A node is 32 bytes and an index 64 bits, so what holds of bytes and bits holds of them. An index is
read off the bytes of an input; fewer than eight bytes leave its high bits constant zeros.
-/

namespace TreeProver.Circuit

open Layout Synth

variable {s t : Layout}

namespace Node

/-- Thirty-two bytes are a node. -/
theorem ofBytes_eq {bs : List Byte} (h : bs.length = 32) : ofBytes bs = .ok ⟨bs, h⟩ := dif_pos h

/-- A constant node stands for its word. -/
theorem nodeIs_constant (w : Word) : s.NodeIs (constant w) w := Byte.bytesAre_constant w.bytes

/-- A node that is allocated with a value stands for it, and is wired unless it is a constant. -/
theorem alloc_lays (h : s.Filled) (how : Allocation) (w : Word) :
    ∃ n t, Lays (alloc how (some w)) s True n t ∧ t.NodeIs n w ∧
      (how ≠ .constant → ∀ b ∈ n.bytes, b.IsWired) := by
  obtain ⟨bs, t, hl, hb, hw⟩ := Byte.allocAll_lays h how w.bytes
  have hlen : bs.length = 32 := hb.length_eq.trans w.length_bytes
  rw [w.length_bytes] at hl
  refine ⟨⟨bs, hlen⟩, t, ?_, hb, fun hn b hm ↦ hw b hm hn⟩
  exact (hl.bind (.ofExcept hl.grows.filled (ofBytes_eq hlen))).congr (by simp)

/-- Allocating nodes with values one after the other. -/
theorem allocAll_lays (h : s.Filled) (how : Allocation) (ws : List Word) :
    ∃ ns t, Lays ((ws.map some).mapM (alloc how)) s True ns t ∧ List.Forall₂ t.NodeIs ns ws := by
  obtain ⟨ns, t, hl, hs, -⟩ := mapM_lays (f := fun w ↦ alloc how (some w)) (q := fun _ ↦ True)
    Keeps.nodeIs (fun w hf ↦ by
      obtain ⟨n, t, hn, hw, -⟩ := alloc_lays hf how w
      exact ⟨n, t, hn, hw, trivial⟩) h ws
  refine ⟨ns, t, ?_, hs⟩
  rw [List.mapM_map]
  exact hl

/-- A selected node stands for the value of the side that is selected. -/
theorem select_lays (h : s.Filled) {which : Bit} {yes no : Node} {v : Bool} {x y : Word}
    (hw : s.BitIs which v) (hy : s.NodeIs yes x) (hn : s.NodeIs no y) :
    ∃ n t, Lays (select which yes no) s True n t ∧ t.NodeIs n (if v then x else y) := by
  have hlen : yes.bytes.length = no.bytes.length := by rw [yes.length_bytes, no.length_bytes]
  obtain ⟨bs, t, hl, hls, hv⟩ := choices_lays (f := fun p ↦ Byte.select which p.1 p.2)
    Keeps.byteIs (fun hf hk hb hc ↦ Byte.select_lays hf (hk.bitIs hw) hb hc) h hlen hy hn
  have hbs : bs.length = 32 := hls.trans yes.length_bytes
  refine ⟨⟨bs, hbs⟩, t, ?_, ?_⟩
  · exact (hl.bind (.ofExcept hl.grows.filled (ofBytes_eq hbs))).congr (by simp)
  · cases v
    · exact hv
    · exact hv

/-- Comparing two nodes, the first of them of wires, demands that they stand for the same word. -/
theorem demandEqual_lays (h : s.Filled) {a b : Node} {x y : Word} (ha : s.NodeIs a x)
    (hb : s.NodeIs b y) (hw : ∀ c ∈ a.bytes, c.IsWired) :
    ∃ t, Lays (demandEqual a b) s (x = y) () t := by
  have hlen : a.bytes.length = b.bytes.length := by rw [a.length_bytes, b.length_bytes]
  obtain ⟨t, ht⟩ := Byte.demandAllEqual_lays h ha hb hlen hw
  exact ⟨t, ht.congr Word.ext_iff.symm⟩

end Node

namespace Index

/-- Octets have eight places each. -/
theorem length_flatMap_toList {α : Type} (bs : List (Octet α)) :
    (bs.flatMap Octet.toList).length = 8 * bs.length := by
  induction bs with
  | nil => rfl
  | cons c cs ih =>
    rw [List.flatMap_cons, List.length_append, ih, List.length_cons]
    simp only [Octet.toList, List.length_cons, List.length_nil]
    omega

/-- Bytes have eight bits each, whichever end they are read from. -/
theorem length_bits_of_bytes (bs : List Byte) :
    (bs.reverse.flatMap Octet.toList).length = 8 * bs.length := by
  rw [length_flatMap_toList, List.length_reverse]

/-- The index that at most eight bytes spell has their bits, and constant zeros above them. -/
theorem ofBytes_eq {bs : List Byte} (h : bs.length ≤ 8) :
    ∃ i : Index, ofBytes bs = .ok i ∧ i.bits = bs.reverse.flatMap Octet.toList
      ++ List.replicate (64 - 8 * bs.length) (.constant false) := by
  have hl := length_bits_of_bytes bs
  refine ⟨ofBits (bs.reverse.flatMap Octet.toList), if_pos h, ?_⟩
  show (bs.reverse.flatMap Octet.toList ++ List.replicate 64 (Bit.constant false)).take 64 = _
  rw [List.take_append, List.take_of_length_le (by omega), List.take_replicate, hl]
  congr 2
  omega

/-- The index that bytes spell stands for the number that their values spell, the most significant
byte first. -/
theorem indexIs_of_bytes {bs : List Byte} {xs : Bytes} {i : Index} (h : s.BytesAre bs xs)
    (hl : bs.length ≤ 8) (hi : i.bits = bs.reverse.flatMap Octet.toList
      ++ List.replicate (64 - 8 * bs.length) (.constant false)) :
    s.IndexIs i (UInt64.ofNat (Bytes.toNatBE xs)) := by
  have hx : xs.length ≤ 8 := h.length_eq ▸ hl
  have hz (n : Nat) :
      s.BitsAre (List.replicate n (.constant false)) (List.replicate n false) := by
    induction n with
    | zero => exact .nil
    | succ n ih => exact .cons (bitIs_constant false) ih
  have hb : s.BitsAre i.bits (xs.reverse.flatMap (fun x ↦ (Octet.ofByte x).toList)
      ++ List.replicate (64 - 8 * bs.length) false) := by
    rw [hi]
    exact List.rel_append h.bits (hz (64 - 8 * bs.length))
  -- The bits spell the number of the bytes, which fits into 64 bits.
  have hlt : Bytes.toNatBE xs < 2 ^ 64 :=
    Nat.lt_of_lt_of_le (Bytes.toNatBE_lt xs) (Nat.pow_le_pow_right (n := 256) (by decide) hx)
  have he := Octet.bitsOfNat_bitsToNat (xs.reverse.flatMap (fun x ↦ (Octet.ofByte x).toList)
    ++ List.replicate (64 - 8 * bs.length) false)
  rw [← hb.length_eq, i.length_bits, Octet.bitsToNat_append, Bytes.bitsToNat_flatMap,
    Octet.bitsToNat_replicate_false, Nat.mul_zero, Nat.add_zero] at he
  rw [IndexIs, UInt64.toNat_ofNat_of_lt' hlt]
  rw [← he] at hb
  exact hb

/-- The bits of an index that is read off wires are wires or constant zeros. -/
theorem isWire_or_zero {bs : List Byte} {i : Index} (hw : ∀ b ∈ bs, b.IsWired)
    (hi : i.bits = bs.reverse.flatMap Octet.toList
      ++ List.replicate (64 - 8 * bs.length) (.constant false)) :
    ∀ b ∈ i.bits, b.IsWire ∨ b = .constant false := by
  intro b hb
  rw [hi, List.mem_append, List.mem_flatMap] at hb
  rcases hb with ⟨c, hc, hbc⟩ | hb
  · exact .inl (hw c (List.mem_reverse.1 hc) b hbc)
  · exact .inr (List.eq_of_mem_replicate hb)

/-- The bits of an index below the constant zeros are wires. -/
theorem isWire_of_lt {bs : List Byte} {i : Index} {k : Nat} (hw : ∀ b ∈ bs, b.IsWired)
    (hi : i.bits = bs.reverse.flatMap Octet.toList
      ++ List.replicate (64 - 8 * bs.length) (.constant false)) (hk : k < 8 * bs.length) :
    ∀ b ∈ i.bits[k]?, b.IsWire := by
  intro b hb
  rw [hi, List.getElem?_append_left (by rwa [length_bits_of_bytes])] at hb
  obtain ⟨c, hc, hbc⟩ := List.mem_flatMap.1 (List.mem_of_getElem? hb)
  exact hw c (List.mem_reverse.1 hc) b hbc

/-- An index that is allocated with a value stands for it, and consists of wires unless it is a
constant. -/
theorem alloc_lays (h : s.Filled) (how : Allocation) (g : UInt64) :
    ∃ i t, Lays (alloc how (some g)) s True i t ∧ t.IndexIs i g ∧
      (how ≠ .constant → ∀ b ∈ i.bits, b.IsWire) := by
  obtain ⟨bs, t, hl, hb, hw⟩ := mapM_lays (f := fun x ↦ Byte.alloc how (some x))
    Keeps.byteIs (fun x hf ↦ Byte.alloc_lays hf how x) h (Bytes.ofNatLE size g.toNat)
  have hlen : bs.length = 8 := hb.length_eq.trans (Bytes.length_ofNatLE size g.toNat)
  have hbits : (ofBits (bs.flatMap Octet.toList)).bits = bs.flatMap Octet.toList := by
    show (bs.flatMap Octet.toList ++ List.replicate 64 (Bit.constant false)).take 64 = _
    exact List.take_left' (by rw [length_flatMap_toList, hlen])
  have hp := Lays.pure hl.grows.filled (ofBits (bs.flatMap Octet.toList))
  refine ⟨ofBits (bs.flatMap Octet.toList), t, ?_, ?_, fun hn b hm ↦ ?_⟩
  · simp only [alloc, Option.map_some, Byte.optionalBytes, List.mapM_map]
    exact (hl.bind hp).congr (by simp)
  · -- Eight bytes of the number have all 64 of its bits.
    have hm := BytesAre.flatMap_toList hb
    have he := Octet.bitsOfNat_bitsToNat
      ((Bytes.ofNatLE size g.toNat).flatMap fun x ↦ (Octet.ofByte x).toList)
    have hg : g.toNat % 256 ^ size = g.toNat := Nat.mod_eq_of_lt g.toNat_lt
    rw [← hm.length_eq, length_flatMap_toList, hlen, Bytes.bitsToNat_flatMap,
      Bytes.toNatLE_ofNatLE, hg] at he
    rw [IndexIs, hbits, he]
    exact hm
  · rw [hbits, List.mem_flatMap] at hm
    obtain ⟨c, hc, hbc⟩ := hm
    exact hw c hc hn b hbc

end Index

end TreeProver.Circuit
