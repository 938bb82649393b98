import TreeProver.Proofs.Tree.Path

/-!
# Subtrees of perfect trees

Going up acts on each block of `2 ^ a` neighbouring nodes by itself: `a` levels above them there is
one node for every block, its root. The tree over `2 ^ (a + b)` leaves is therefore the tree over
the roots of its `2 ^ b` subtrees of `2 ^ a` leaves each.

The root is defined by a number of levels. It is also what is left when one goes up for as long as
there is more than one node, and on the way no layer has a last node without neighbour.
-/

namespace TreeProver.Tree

/-- Goes up as long as a layer has more than one node. -/
def lastLayer (layer : List Word) : List Word :=
  if 1 < layer.length then lastLayer (parents layer) else layer
termination_by layer.length
decreasing_by
  rw [length_parents]
  omega

/-- The leaves of the subtree at a position, when the subtrees have a number of leaves each. -/
def block (size : Nat) (leaves : List Word) (position : Nat) : List Word :=
  (leaves.drop (position * size)).take size

/-- The parents of neighbours in front of a layer come before the parents of that layer. -/
theorem parents_pairs_append (pairs : List (Word × Word)) (layer : List Word) :
    parents (pairs.flatMap (fun p ↦ [p.1, p.2]) ++ layer)
      = pairs.map (fun p ↦ sha256Pair p.1 p.2) ++ parents layer := by
  induction pairs with
  | nil => rfl
  | cons p pairs ih =>
    simp only [List.flatMap_cons, List.cons_append, List.nil_append, parents, ih, List.map_cons]

/-- An even number of nodes are pairs of neighbours, and each pair has its parent in the layer
above. -/
theorem exists_pairs {layer : List Word} (h : layer.length % 2 = 0) :
    ∃ pairs : List (Word × Word), layer = pairs.flatMap (fun p ↦ [p.1, p.2]) ∧
      parents layer = pairs.map fun p ↦ sha256Pair p.1 p.2 := by
  induction layer using parents.induct with
  | case1 a b rest ih =>
    obtain ⟨pairs, hrest, hparents⟩ := ih (by simp at h; omega)
    refine ⟨(a, b) :: pairs, ?_, ?_⟩
    · rw [List.flatMap_cons, ← hrest]
      rfl
    · rw [parents, hparents, List.map_cons]
  | case2 layer hl =>
    rcases layer with - | ⟨a, - | ⟨b, rest⟩⟩
    · exact ⟨[], rfl, rfl⟩
    · simp at h
    · exact absurd rfl (hl a b rest)

/-- The parents of two parts of a layer are side by side when the first part has no last node
without neighbour. -/
theorem parents_append {left : List Word} (h : left.length % 2 = 0) (right : List Word) :
    parents (left ++ right) = parents left ++ parents right := by
  obtain ⟨pairs, hleft, hparents⟩ := exists_pairs h
  rw [hparents, hleft, parents_pairs_append]

/-- A layer has a node for every block of `2 ^ levels` nodes that many levels below. -/
theorem length_layerAbove (levels : Nat) (layer : List Word) :
    (layerAbove levels layer).length = layer.length / 2 ^ levels := by
  induction levels generalizing layer with
  | zero => simp [layerAbove]
  | succ levels ih => rw [layerAbove, ih, length_parents, Gindex.div_two_div_pow]

/-- Going up twice is going up by the sum of the levels. -/
theorem layerAbove_add (m n : Nat) (layer : List Word) :
    layerAbove (m + n) layer = layerAbove n (layerAbove m layer) := by
  induction m generalizing layer with
  | zero => rw [Nat.zero_add, layerAbove]
  | succ m ih => rw [Nat.succ_add, layerAbove, ih, layerAbove]

/-- Going up acts on two parts of a layer one by one, when the first consists of whole blocks. -/
theorem layerAbove_append (levels : Nat) {left : List Word} (h : 2 ^ levels ∣ left.length)
    (right : List Word) :
    layerAbove levels (left ++ right) = layerAbove levels left ++ layerAbove levels right := by
  induction levels generalizing left right with
  | zero => rfl
  | succ levels ih =>
    obtain ⟨k, hk⟩ := h
    rw [Nat.pow_succ, Nat.mul_assoc, Nat.mul_left_comm] at hk
    have heven : left.length % 2 = 0 := by omega
    -- One level up there are as many blocks as before, each of half the size.
    have hhalf : 2 ^ levels ∣ (parents left).length := by
      refine ⟨k, ?_⟩
      rw [length_parents]
      omega
    rw [layerAbove, parents_append heven, ih hhalf]
    rfl

/-- Above a single block there is a single node. -/
theorem layerAbove_eq_singleton {levels : Nat} {block : List Word} (h : block.length = 2 ^ levels) :
    layerAbove levels block = [(layerAbove levels block).headD default] := by
  have hlen : (layerAbove levels block).length = 1 := by
    rw [length_layerAbove, h, Nat.div_self (Nat.pow_pos (by decide))]
  obtain ⟨w, hw⟩ := List.length_eq_one_iff.1 hlen
  rw [hw]
  rfl

/-- Above blocks that are side by side there is one node for each of them. -/
theorem layerAbove_flatten {levels : Nat} {blocks : List (List Word)}
    (h : ∀ block ∈ blocks, block.length = 2 ^ levels) :
    layerAbove levels blocks.flatten
      = blocks.map fun block ↦ (layerAbove levels block).headD default := by
  induction blocks with
  | nil =>
    apply List.eq_nil_of_length_eq_zero
    rw [length_layerAbove, List.flatten_nil, List.length_nil, Nat.zero_div]
  | cons block blocks ih =>
    rw [List.forall_mem_cons] at h
    rw [List.flatten_cons, layerAbove_append levels (h.1 ▸ Nat.dvd_refl _), ih h.2,
      layerAbove_eq_singleton h.1]
    rfl

/-- The tree over blocks of leaves that are side by side is the tree over the roots of the
blocks. -/
theorem root_flatten {a b : Nat} {blocks : List (List Word)} (hb : blocks.length = 2 ^ b)
    (hl : blocks.flatten.length = 2 ^ (a + b)) (h : ∀ block ∈ blocks, block.length = 2 ^ a) :
    root blocks.flatten
      = root (blocks.map fun block ↦ (layerAbove a block).headD default) := by
  have hroots : (blocks.map fun block ↦ (layerAbove a block).headD default).length = 2 ^ b := by
    rw [List.length_map, hb]
  rw [root_eq hl, root_eq hroots, layerAbove_add, layerAbove_flatten h]

/-- Leaves are their blocks of one size side by side, when as many of them fit. -/
theorem flatten_blocks {count size : Nat} {leaves : List Word} (h : leaves.length = count * size) :
    ((List.range count).map (block size leaves)).flatten = leaves := by
  induction count generalizing leaves with
  | zero =>
    symm
    apply List.eq_nil_of_length_eq_zero
    omega
  | succ count ih =>
    rw [Nat.succ_mul] at h
    have hrest : (leaves.drop size).length = count * size := by
      rw [List.length_drop]
      omega
    have hshift : ((List.range count).map fun i ↦ block size leaves (i + 1))
        = (List.range count).map (block size (leaves.drop size)) := by
      apply List.map_congr_left
      intro i _
      rw [block, block, List.drop_drop, Nat.succ_mul, Nat.add_comm]
    simp only [List.range_succ_eq_map, List.map_cons, List.map_map, List.flatten_cons,
      Function.comp_def, Nat.succ_eq_add_one]
    rw [hshift, ih hrest, block, Nat.zero_mul, List.drop_zero, List.take_append_drop]

/-- A block that fits has its size. -/
theorem length_block {count size i : Nat} {leaves : List Word} (h : leaves.length = count * size)
    (hi : i < count) : (block size leaves i).length = size := by
  have hle : (i + 1) * size ≤ count * size := Nat.mul_le_mul_right size hi
  rw [Nat.succ_mul] at hle
  rw [block, List.length_take, List.length_drop]
  omega

/-- Going up as long as there is more than one node goes up by the depth of the tree. -/
theorem lastLayer_eq (depth : Nat) {layer : List Word} (h : layer.length = 2 ^ depth) :
    lastLayer layer = layerAbove depth layer := by
  induction depth generalizing layer with
  | zero =>
    rw [lastLayer, if_neg (by rw [h]; decide)]
    rfl
  | succ depth ih =>
    have hp : 0 < 2 ^ depth := Nat.pow_pos (by decide)
    rw [Nat.pow_succ] at h
    rw [lastLayer, if_pos (by omega), ih (by rw [length_parents]; omega)]
    rfl

/-- Cut into blocks, the leaves of a tree have the root of the tree over the roots of the blocks. -/
theorem exists_block_roots {a b : Nat} {leaves : List Word} (hl : leaves.length = 2 ^ (a + b)) :
    ∃ roots : List Word, roots.length = 2 ^ b ∧
      (∀ (i : Nat) (h : i < roots.length), root (block (2 ^ a) leaves i) = .ok roots[i]) ∧
      root leaves = root roots := by
  have hcut : leaves.length = 2 ^ b * 2 ^ a := by rw [hl, Nat.pow_add, Nat.mul_comm]
  have hblocks : ∀ leaves' ∈ (List.range (2 ^ b)).map (block (2 ^ a) leaves),
      leaves'.length = 2 ^ a := by
    simp only [List.forall_mem_map, List.mem_range]
    exact fun i hi ↦ length_block hcut hi
  have hflat := flatten_blocks hcut
  have hroot := root_flatten (b := b) (by rw [List.length_map, List.length_range])
    (hflat.symm ▸ hl) hblocks
  rw [hflat] at hroot
  refine ⟨_, ?_, ?_, hroot⟩
  · rw [List.length_map, List.length_map, List.length_range]
  · intro i hi
    simp only [List.length_map, List.length_range] at hi
    simp only [List.getElem_map, List.getElem_range]
    exact root_eq (length_block hcut hi)

/-- The root over two halves is the parent of their roots. -/
theorem exists_half_roots {a : Nat} {left right : List Word} (hleft : left.length = 2 ^ a)
    (hright : right.length = 2 ^ a) :
    ∃ l r, root left = .ok l ∧ root right = .ok r ∧
      root (left ++ right) = .ok (sha256Pair l r) := by
  have hflat : [left, right].flatten = left ++ right := by simp
  have hlen : (left ++ right).length = 2 ^ (a + 1) := by
    rw [List.length_append, hleft, hright, Nat.pow_succ, Nat.mul_two]
  have hhalves : ∀ half ∈ [left, right], half.length = 2 ^ a := by simp [hleft, hright]
  have hroot := root_flatten (b := 1) rfl (hflat.symm ▸ hlen) hhalves
  rw [hflat, List.map_cons, List.map_singleton] at hroot
  refine ⟨_, _, root_eq hleft, root_eq hright, ?_⟩
  rw [hroot]
  exact root_eq (show _ = 2 ^ 1 from rfl)

/-- Leaves that are not a power of two are refused. -/
theorem root_error {leaves : List Word} (h : ∀ depth : Nat, leaves.length ≠ 2 ^ depth) :
    root leaves = .error (.leafCountNotPowerOfTwo leaves.length) := by
  have hp : ¬ isPowerOfTwo leaves.length = true := by
    rw [isPowerOfTwo_iff]
    rintro ⟨depth, hdepth⟩
    exact h depth hdepth
  rw [root, if_neg hp]

/-- Below the root every layer of a tree consists of pairs, whose parents are the layer above. -/
theorem exists_layer_pairs {depth i : Nat} {leaves : List Word} (hl : leaves.length = 2 ^ depth)
    (hi : i < depth) :
    ∃ pairs : List (Word × Word), layerAbove i leaves = pairs.flatMap (fun p ↦ [p.1, p.2]) ∧
      layerAbove (i + 1) leaves = pairs.map fun p ↦ sha256Pair p.1 p.2 := by
  obtain ⟨k, rfl⟩ : ∃ k, depth = i + (k + 1) := ⟨depth - i - 1, by omega⟩
  have hp : 0 < 2 ^ i := Nat.pow_pos (by decide)
  have heven : (layerAbove i leaves).length % 2 = 0 := by
    rw [length_layerAbove, hl, Nat.pow_add, Nat.mul_div_cancel_left _ hp, Nat.pow_succ,
      Nat.mul_mod_left]
  rw [layerAbove_add i 1]
  exact exists_pairs heven

/-- Trees decompose into subtrees of any size. The root over `2 ^ (a + b)` leaves is the root over
the roots of the `2 ^ b` blocks of `2 ^ a` neighbouring leaves; two halves have the parent of their
roots as root, and a single leaf is its own root. Any other number of leaves is refused with that
number. Going up as long as there is more than one node ends with the root alone, and every layer on
the way consists of pairs of neighbours, whose parents are the next layer. -/
theorem root_of_subtree_roots :
    (∀ (a b : Nat) (leaves : List Word), leaves.length = 2 ^ (a + b) →
      (∃ r, root leaves = .ok r) ∧ ∃ roots : List Word, roots.length = 2 ^ b ∧
        (∀ (i : Nat) (h : i < roots.length), root (block (2 ^ a) leaves i) = .ok roots[i]) ∧
        root leaves = root roots) ∧
    (∀ (a : Nat) (left right : List Word), left.length = 2 ^ a → right.length = 2 ^ a →
      ∃ l r, root left = .ok l ∧ root right = .ok r ∧
        root (left ++ right) = .ok (sha256Pair l r)) ∧
    (∀ leaf, root [leaf] = .ok leaf) ∧
    (∀ leaves : List Word, (∀ depth : Nat, leaves.length ≠ 2 ^ depth) →
      root leaves = .error (.leafCountNotPowerOfTwo leaves.length)) ∧
    ∀ (depth : Nat) (leaves : List Word), leaves.length = 2 ^ depth →
      (∀ i < depth, ∃ pairs : List (Word × Word),
        layerAbove i leaves = pairs.flatMap (fun p ↦ [p.1, p.2]) ∧
        layerAbove (i + 1) leaves = pairs.map fun p ↦ sha256Pair p.1 p.2) ∧
      ∃ r, layerAbove depth leaves = [r] ∧ lastLayer leaves = [r] ∧ root leaves = .ok r := by
  refine ⟨?_, ?_, fun leaf ↦ root_eq (show [leaf].length = 2 ^ 0 from rfl), ?_, ?_⟩
  · intro a b leaves hl
    exact ⟨⟨_, root_eq hl⟩, exists_block_roots hl⟩
  · intro a left right hleft hright
    exact exists_half_roots hleft hright
  · intro leaves h
    exact root_error h
  · intro depth leaves hl
    have htop := layerAbove_eq_singleton hl
    have hlast := (lastLayer_eq depth hl).trans htop
    exact ⟨fun i hi ↦ exists_layer_pairs hl hi, _, htop, hlast, root_eq hl⟩

/-- Four leaves are two subtrees of two leaves, and three leaves are no tree. -/
theorem root_of_subtree_roots_four :
    let leaves := (List.range 4).map Word.ofNat
    leaves.length = 2 ^ (1 + 1 : Nat) ∧
    (∀ depth : Nat, (leaves.drop 1).length ≠ 2 ^ depth) ∧
    (∃ roots : List Word, roots.length = 2 ^ (1 : Nat) ∧
      (∀ (i : Nat) (h : i < roots.length),
        root (block (2 ^ (1 : Nat)) leaves i) = .ok roots[i]) ∧ root leaves = root roots) ∧
    (∃ l r, root (leaves.take 2) = .ok l ∧ root (leaves.drop 2) = .ok r ∧
      root leaves = .ok (sha256Pair l r)) ∧
    root (leaves.drop 1) = .error (.leafCountNotPowerOfTwo 3) ∧
    (∃ pairs : List (Word × Word), layerAbove 1 leaves = pairs.flatMap (fun p ↦ [p.1, p.2]) ∧
      layerAbove 2 leaves = pairs.map fun p ↦ sha256Pair p.1 p.2) ∧
    ∃ r, lastLayer leaves = [r] ∧ root leaves = .ok r := by
  intro leaves
  have hthree : ∀ depth : Nat, (leaves.drop 1).length ≠ 2 ^ depth := by
    intro depth hdepth
    have htest : isPowerOfTwo 3 = true := isPowerOfTwo_iff.2 ⟨depth, hdepth⟩
    exact absurd htest (by decide)
  obtain ⟨hlayers, r, -, hlast, hroot⟩ := root_of_subtree_roots.2.2.2.2 2 leaves rfl
  refine ⟨rfl, hthree, (root_of_subtree_roots.1 1 1 leaves rfl).2, ?_, ?_, ?_, r, hlast, hroot⟩
  · exact root_of_subtree_roots.2.1 1 (leaves.take 2) (leaves.drop 2) rfl rfl
  · exact root_of_subtree_roots.2.2.2.1 (leaves.drop 1) hthree
  · exact hlayers 1 (by decide)

end TreeProver.Tree
