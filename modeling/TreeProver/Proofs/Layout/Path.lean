import TreeProver.Circuit.Path
import TreeProver.Proofs.Layout.Digest
import TreeProver.Proofs.Tree.Gindex
import TreeProver.Tree.Path

/-!
# Laying out trees

The walk along a path inside a circuit reaches the node that the walk outside reaches: every level
hashes both orders, and the bit of the index picks the one that the parity of the index picks
outside. The demands on the bits from the depth of the path on say together that the index names a
node of that depth.
-/

namespace TreeProver.Circuit

open Layout Synth

variable {s t : Layout}

namespace Node

/-- Binary digits are all zero exactly when the number is a multiple of the power of two. -/
private theorem bitsOfNat_all_false_iff (width n : Nat) :
    (∀ v ∈ Octet.bitsOfNat width n, v = false) ↔ n % 2 ^ width = 0 := by
  constructor
  · intro h
    have hr := List.eq_replicate_of_mem h
    rw [← Octet.bitsToNat_bitsOfNat, hr, Octet.bitsToNat_replicate_false]
  · intro h v hv
    have hr : Octet.bitsOfNat width n = List.replicate width false := by
      apply Octet.bitsToNat_inj (by simp)
      rw [Octet.bitsToNat_bitsOfNat, h, Octet.bitsToNat_replicate_false]
    rw [hr] at hv
    exact List.eq_of_mem_replicate hv

/-- Demanding the depth of an index demands that it is accepted for paths of that length. The bit at
the depth has to be a wire, and constants above it zeros. -/
theorem demandDepth_lays (h : s.Filled) {i : Index} {g : UInt64} {depth : Nat}
    (hi : s.IndexIs i g) (hd : depth < Gindex.maxDepth)
    (hm : ∀ b ∈ i.bits[depth]?, b.IsWire) (hw : ∀ b ∈ i.bits, b.IsWire ∨ b = .constant false) :
    ∃ t, Lays (demandDepth i depth) s ((Gindex.check g depth).isOk = true) () t := by
  have hlt : depth < i.bits.length := by
    rw [i.length_bits]
    exact hd
  have hb := List.forall₂_drop depth hi
  have hs : 64 - depth = (63 - depth) + 1 := by
    have hd' : depth < 64 := hd
    omega
  rw [Octet.drop_bitsOfNat, List.drop_eq_getElem_cons hlt, hs, Octet.bitsOfNat] at hb
  rw [List.getElem?_eq_getElem hlt] at hm
  rw [demandDepth, List.drop_eq_getElem_cons hlt]
  cases hb with
  | cons hmark habove =>
    obtain ⟨t, ht⟩ := Bit.demand_lays true h hmark (.inl (hm _ rfl))
    obtain ⟨u, hu⟩ := Bit.demandAll_lays ht.grows.filled (ht.grows.keeps.bitsAre habove)
      fun b hb' ↦ hw b (List.mem_of_mem_drop hb')
    refine ⟨u, (ht.bind hu).congr ?_⟩
    -- Above the mark there are as many places as the quotient can have digits.
    have hq : g.toNat / 2 ^ depth / 2 < 2 ^ (63 - depth) := by
      rw [Nat.div_div_eq_div_mul, ← Nat.pow_succ, Nat.div_lt_iff_lt_mul (Nat.pow_pos (by decide)),
        ← Nat.pow_add]
      have he : 63 - depth + depth.succ = 64 := by
        have hd' : depth < 64 := hd
        omega
      rw [he]
      exact g.toNat_lt
    rw [bitsOfNat_all_false_iff, Nat.mod_eq_of_lt hq, decide_eq_true_eq, Gindex.isOk_check_iff]
    omega

/-- The walk with the bits of an index reaches the node that the walk with the index reaches. -/
theorem climbBits_lays (h : s.Filled) {node : Node} {w : Word} {path : List Node}
    {ws : List Word} {bits : List Bit} {g : UInt64} {width : Nat} (hn : s.NodeIs node w)
    (hp : List.Forall₂ s.NodeIs path ws) (hb : s.BitsAre bits (Octet.bitsOfNat width g.toNat))
    (hl : path.length ≤ width) :
    ∃ n t, Lays (climbBits node path bits) s True n t ∧ t.NodeIs n (Tree.restore w ws g) := by
  induction path generalizing s node w ws bits g width with
  | nil =>
    cases hp
    exact ⟨node, s, .pure h node, hn⟩
  | cons sibling path ih =>
    obtain ⟨width, rfl⟩ : ∃ k, width = k + 1 := ⟨width - 1, by simp at hl; omega⟩
    cases hp with
    | @cons _ x _ ws hx hws =>
    cases hb with
    | @cons isRight _ bits _ hr hbs =>
    obtain ⟨right, s₁, h₁, hn₁⟩ := sha256Pair_lays h hx hn
    have k₁ := h₁.grows.keeps
    obtain ⟨left, s₂, h₂, hn₂⟩ := sha256Pair_lays h₁.grows.filled (k₁.nodeIs hn) (k₁.nodeIs hx)
    have k₂ := k₁.trans h₂.grows.keeps
    obtain ⟨parent, s₃, h₃, hn₃⟩ := select_lays h₂.grows.filled (k₂.bitIs hr)
      (h₂.grows.keeps.nodeIs hn₁) hn₂
    have k₃ := k₂.trans h₃.grows.keeps
    -- The bit that picks the order is the parity of the index.
    have hpar : (if decide (g.toNat % 2 = 1) then sha256Pair x w else sha256Pair w x)
        = Tree.parentAt g w x := by
      have hg : g % 2 = 1 ↔ g.toNat % 2 = 1 := by
        rw [← UInt64.toNat_inj]
        rfl
      simp only [Tree.parentAt, hg, decide_eq_true_eq]
    rw [hpar] at hn₃
    have hg2 : g.toNat / 2 = (g / 2).toNat := rfl
    obtain ⟨n, t, h₄, hn₄⟩ := ih h₃.grows.filled hn₃ (hws.imp fun _ _ h' ↦ k₃.nodeIs h')
      (k₃.bitsAre (hg2 ▸ hbs)) (by simpa using hl)
    exact ⟨n, t, (h₁.bind (h₂.bind (h₃.bind h₄))).congr (by simp), hn₄⟩

/-- Restoring a root with an index inside the circuit demands that the index is accepted, and gives
the root that is restored outside. -/
theorem restoreAt_lays (h : s.Filled) {leaf : Node} {w : Word} {path : List Node}
    {ws : List Word} {i : Index} {g : UInt64} (hn : s.NodeIs leaf w)
    (hp : List.Forall₂ s.NodeIs path ws) (hi : s.IndexIs i g) (hd : path.length < Gindex.maxDepth)
    (hm : ∀ b ∈ i.bits[path.length]?, b.IsWire)
    (hw : ∀ b ∈ i.bits, b.IsWire ∨ b = .constant false) :
    ∃ n t, Lays (restoreAt leaf path i) s ((Gindex.check g path.length).isOk = true) n t ∧
      t.NodeIs n (Tree.restore w ws g) := by
  obtain ⟨t, ht⟩ := demandDepth_lays h hi hd hm hw
  have hk := ht.grows.keeps
  obtain ⟨n, u, hu, hnu⟩ := climbBits_lays ht.grows.filled (hk.nodeIs hn)
    (hp.imp fun _ _ h' ↦ hk.nodeIs h') (hk.bitsAre hi) (Nat.le_of_lt hd)
  refine ⟨n, u, ?_, hnu⟩
  have hf : ¬ Gindex.maxDepth ≤ path.length := Nat.not_le.2 hd
  simp only [restoreAt, hf, ↓reduceIte]
  exact (ht.bind hu).congr (by simp)

/-- Verifying a path with an index inside the circuit demands that the index is accepted and that
the path restores the root, whose bytes have to be wires. -/
theorem verifyAt_lays (h : s.Filled) {root leaf : Node} {r w : Word} {path : List Node}
    {ws : List Word} {i : Index} {g : UInt64} (hr : s.NodeIs root r) (hn : s.NodeIs leaf w)
    (hp : List.Forall₂ s.NodeIs path ws) (hi : s.IndexIs i g) (hd : path.length < Gindex.maxDepth)
    (hrw : ∀ b ∈ root.bytes, b.IsWired) (hm : ∀ b ∈ i.bits[path.length]?, b.IsWire)
    (hw : ∀ b ∈ i.bits, b.IsWire ∨ b = .constant false) :
    ∃ t, Lays (verifyAt root leaf path i) s
      ((Gindex.check g path.length).isOk = true ∧ r = Tree.restore w ws g) () t := by
  obtain ⟨n, t, ht, hnt⟩ := restoreAt_lays h hn hp hi hd hm hw
  obtain ⟨u, hu⟩ := demandEqual_lays ht.grows.filled (ht.grows.keeps.nodeIs hr) hnt hrw
  exact ⟨u, ht.bind hu⟩

/-- The parents of nodes that stand for words stand for the parents of the words. -/
theorem parents_lays : {s : Layout} → s.Filled → {layer : List Node} → {ws : List Word} →
    List.Forall₂ s.NodeIs layer ws →
      ∃ ns t, Lays (parents layer) s True ns t ∧ List.Forall₂ t.NodeIs ns (Tree.parents ws)
  | s, h, _, _, .nil => ⟨[], s, .pure h _, .nil⟩
  | s, h, _, _, .cons _ .nil => ⟨[], s, .pure h _, .nil⟩
  | _, h, _ :: _ :: _, _ :: _ :: _, .cons ha (.cons hb hrest) => by
    obtain ⟨n, t, hn, hnt⟩ := sha256Pair_lays h ha hb
    obtain ⟨ns, u, hu, hnu⟩ :=
      parents_lays hn.grows.filled (hrest.imp fun _ _ h' ↦ hn.grows.keeps.nodeIs h')
    have hp : Lays (pure (n :: ns)) u True (n :: ns) u := .pure hu.grows.filled _
    exact ⟨n :: ns, u, (hn.bind (hu.bind hp)).congr (by simp),
      .cons (hu.grows.keeps.nodeIs hnt) hnu⟩

/-- A layer above nodes that stand for words stands for the layer above the words. -/
theorem layerAbove_lays (h : s.Filled) (levels : Nat) {layer : List Node} {ws : List Word}
    (hl : List.Forall₂ s.NodeIs layer ws) :
    ∃ ns t, Lays (layerAbove levels layer) s True ns t ∧
      List.Forall₂ t.NodeIs ns (Tree.layerAbove levels ws) := by
  induction levels generalizing s layer ws with
  | zero => exact ⟨layer, s, .pure h layer, hl⟩
  | succ levels ih =>
    obtain ⟨ns, t, hn, hnt⟩ := parents_lays h hl
    obtain ⟨ms, u, hm, hmu⟩ := ih hn.grows.filled hnt
    exact ⟨ms, u, (hn.bind hm).congr (by simp), hmu⟩

/-- The root over nodes that stand for words stands for the root over the words. -/
theorem root_lays (h : s.Filled) {leaves : List Node} {ws : List Word} {count : Nat}
    (hl : List.Forall₂ s.NodeIs leaves ws) (hc : Tree.isPowerOfTwo count = true)
    (hle : count ≤ leaves.length) :
    ∃ n t, Lays (root leaves count) s True n t ∧
      t.NodeIs n ((Tree.layerAbove count.log2 (ws.take count)).headD default) := by
  obtain ⟨top, t, ht, hts⟩ := layerAbove_lays h count.log2 (List.forall₂_take count hl)
  have hp := Lays.pure ht.grows.filled (top.headD (constant default))
  refine ⟨top.headD (constant default), t, ?_, ?_⟩
  · have hlt : ¬ leaves.length < count := Nat.not_lt.2 hle
    simp only [root, hc, not_true_eq_false, hlt, ↓reduceIte]
    exact (ht.bind hp).congr (by simp)
  · generalize Tree.layerAbove count.log2 (ws.take count) = above at hts
    cases hts with
    | nil => exact nodeIs_constant default
    | cons hn _ => exact hn

end Node

end TreeProver.Circuit
