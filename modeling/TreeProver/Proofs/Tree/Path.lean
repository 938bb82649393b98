import Mathlib.Data.Nat.Bitwise
import TreeProver.Proofs.Tree.Gindex
import TreeProver.Tree.Path

/-!
# Paths of perfect trees

The path of a leaf restores the root. On the way up it hashes, level by level, the bytes that are
hashed for the nodes of the tree above the leaf: the node at level `i + 1` above the leaf at
position `p` has position `p / 2 ^ (i + 1)`, and its children sit at twice that position and one
behind it.
-/

namespace TreeProver.Tree

/-- The position of the neighbour with which a node shares its parent. -/
def neighbour (position : Nat) : Nat := if position % 2 = 0 then position + 1 else position - 1

/-- The siblings along the way up from a position, for a number of levels, where zeros stand for
nodes that are not there. -/
def siblings : (levels : Nat) → List Word → (position : Nat) → List Word
  | 0, _, _ => []
  | levels + 1, layer, position =>
    layer.getD (neighbour position) default :: siblings levels (parents layer) (position / 2)

/-- The bytes that are hashed for the parent of a node with the given index and its sibling. -/
def messageAt (g : UInt64) (node sibling : Word) : Bytes :=
  if g % 2 = 1 then sibling.bytes ++ node.bytes else node.bytes ++ sibling.bytes

/-- The bytes that are hashed at every level of the way up a path, the lowest level first. -/
def messages (node : Word) : List Word → UInt64 → List Bytes
  | [], _ => []
  | sibling :: path, g =>
    messageAt g node sibling :: messages (parentAt g node sibling) path (g / 2)

/-- The bytes that are hashed for a node of a tree: its children, a number of levels above the
leaves. -/
def nodeMessage (leaves : List Word) (level position : Nat) : Bytes :=
  ((layerAbove level leaves).getD (2 * position) default).bytes
    ++ ((layerAbove level leaves).getD (2 * position + 1) default).bytes

/-- A parent is the digest of the bytes that are hashed for it. -/
theorem parentAt_eq (g : UInt64) (node sibling : Word) :
    parentAt g node sibling = sha256 (messageAt g node sibling) := by
  rw [parentAt, messageAt]
  split
  · rfl
  · rfl

/-- A parent takes 64 bytes. -/
@[simp] theorem length_messageAt (g : UInt64) (node sibling : Word) :
    (messageAt g node sibling).length = 64 := by
  rw [messageAt]
  split
  · rw [List.length_append, node.length_bytes, sibling.length_bytes]
  · rw [List.length_append, node.length_bytes, sibling.length_bytes]

/-- A node of a tree takes 64 bytes. -/
@[simp] theorem length_nodeMessage (leaves : List Word) (level position : Nat) :
    (nodeMessage leaves level position).length = 64 := by
  rw [nodeMessage, List.length_append, Word.length_bytes, Word.length_bytes]

/-- Every level hashes 64 bytes. -/
theorem length_of_mem_messages {node : Word} {path : List Word} {g : UInt64} {m : Bytes}
    (h : m ∈ messages node path g) : m.length = 64 := by
  induction path generalizing node g with
  | nil => simp [messages] at h
  | cons sibling path ih =>
    rcases List.mem_cons.1 h with rfl | h
    · exact length_messageAt g node sibling
    · exact ih h

/-- A parent of a layer is the digest of its two children. -/
theorem getD_parents {layer : List Word} {position : Nat}
    (h : 2 * position + 1 < layer.length) :
    (parents layer).getD position default = sha256 (nodeMessage layer 0 position) := by
  induction layer using parents.induct generalizing position with
  | case1 a b rest ih =>
    cases position with
    | zero => rfl
    | succ position => exact ih (by simp at h; omega)
  | case2 layer hl =>
    match layer, hl with
    | [], _ => simp at h
    | [_], _ => simp at h
    | a :: b :: rest, hl => exact absurd rfl (hl a b rest)

/-- A node and its neighbour are hashed in the order of the layer. -/
theorem messageAt_neighbour {layer : List Word} {position : Nat} {g : UInt64}
    (hg : g.toNat % 2 = position % 2) :
    messageAt g (layer.getD position default) (layer.getD (neighbour position) default)
      = nodeMessage layer 0 (position / 2) := by
  have hodd : g % 2 = 1 ↔ position % 2 = 1 := by
    rw [← UInt64.toNat_inj, ← hg]
    rfl
  rw [messageAt, nodeMessage, layerAbove, neighbour]
  rcases Nat.mod_two_eq_zero_or_one position with hp | hp
  · have hg' : ¬ g % 2 = 1 := by rw [hodd, hp]; decide
    have he : 2 * (position / 2) = position := by omega
    rw [if_neg hg', if_pos hp, he]
  · have hg' : g % 2 = 1 := hodd.2 hp
    have hn : ¬ position % 2 = 0 := by omega
    have he : 2 * (position / 2) = position - 1 := by omega
    have he' : position - 1 + 1 = position := by omega
    rw [if_pos hg', if_neg hn, he, he']

/-- A path has one sibling for every level. -/
@[simp] theorem length_siblings (levels : Nat) (layer : List Word) (position : Nat) :
    (siblings levels layer position).length = levels := by
  induction levels generalizing layer position with
  | zero => rfl
  | succ levels ih => rw [siblings, List.length_cons, ih]

/-- An index that counts positions of a layer counts those of the layer above when halved. -/
private theorem index_halved {g : UInt64} {position levels : Nat}
    (hg : g.toNat % 2 ^ (levels + 1) = position) :
    g.toNat % 2 = position % 2 ∧ (g / 2).toNat % 2 ^ levels = position / 2 := by
  have hd : (g / 2).toNat = g.toNat / 2 := rfl
  rw [Nat.pow_succ] at hg
  subst hg
  constructor
  · rw [Nat.mod_mul_left_mod]
  · rw [hd, Nat.mul_comm, Nat.mod_mul_right_div_self]

/-- The siblings of a position in a layer of `2 ^ levels` nodes restore the node at the top. -/
theorem restore_siblings (levels : Nat) {layer : List Word} {position : Nat} {g : UInt64}
    (hl : layer.length = 2 ^ levels) (hp : position < 2 ^ levels)
    (hg : g.toNat % 2 ^ levels = position) :
    restore (layer.getD position default) (siblings levels layer position) g
      = (layerAbove levels layer).headD default := by
  induction levels generalizing layer position g with
  | zero =>
    obtain ⟨w, rfl⟩ := List.length_eq_one_iff.1 hl
    obtain rfl : position = 0 := by omega
    rfl
  | succ levels ih =>
    obtain ⟨hpar, hhalf⟩ := index_halved hg
    rw [Nat.pow_succ] at hl hp
    rw [siblings, restore, parentAt_eq, messageAt_neighbour hpar, ← getD_parents (by omega)]
    exact ih (by rw [length_parents]; omega) (by omega) hhalf

/-- On its way up a leaf's path hashes what the tree hashes above the leaf. -/
theorem messages_siblings (levels : Nat) {layer : List Word} {position : Nat} {g : UInt64}
    (hl : layer.length = 2 ^ levels) (hp : position < 2 ^ levels)
    (hg : g.toNat % 2 ^ levels = position) :
    messages (layer.getD position default) (siblings levels layer position) g
      = (List.range levels).map fun i ↦ nodeMessage layer i (position / 2 ^ (i + 1)) := by
  induction levels generalizing layer position g with
  | zero => rfl
  | succ levels ih =>
    obtain ⟨hpar, hhalf⟩ := index_halved hg
    rw [Nat.pow_succ] at hl hp
    have hpl : (parents layer).length = 2 ^ levels := by
      rw [length_parents]
      omega
    have ih := ih hpl (by omega) hhalf
    rw [siblings, messages, parentAt_eq, messageAt_neighbour hpar, ← getD_parents (by omega), ih,
      List.range_succ_eq_map, List.map_cons, List.map_map]
    congr 1
    refine List.map_congr_left fun i _ ↦ ?_
    rw [Function.comp_apply, Gindex.div_two_div_pow]
    rfl

/-- A power of two is one. -/
theorem isPowerOfTwo_two_pow (depth : Nat) : isPowerOfTwo (2 ^ depth) = true := by
  simp [isPowerOfTwo, Nat.log2_two_pow]

/-- The numbers that pass for powers of two are those. -/
theorem isPowerOfTwo_iff {n : Nat} : isPowerOfTwo n = true ↔ ∃ depth : Nat, n = 2 ^ depth := by
  constructor
  · intro h
    rw [isPowerOfTwo, Bool.and_eq_true, beq_iff_eq] at h
    exact ⟨n.log2, h.2.symm⟩
  · rintro ⟨depth, rfl⟩
    exact isPowerOfTwo_two_pow depth

/-- The root over a power of two leaves is the node at the top. -/
theorem root_eq {leaves : List Word} {depth : Nat} (hl : leaves.length = 2 ^ depth) :
    root leaves = .ok ((layerAbove depth leaves).headD default) := by
  rw [root, hl, isPowerOfTwo_two_pow, Nat.log2_two_pow]
  rfl

/-! ### Checked steps -/

section Checked

variable {leaves layer : List Word} {index position : UInt64} {depth : Nat}

/-- A sum that is a number of 64 bits is not reduced. -/
theorem sum?_of_lt {a b : UInt64} (h : a.toNat + b.toNat < UInt64.size) :
    sum? a b = some (a + b) ∧ (a + b).toNat = a.toNat + b.toNat :=
  ⟨if_pos h, by rw [UInt64.toNat_add, Nat.mod_eq_of_lt h]⟩

/-- Flipping the last bit of a position gives its neighbour. -/
theorem toNat_xor_one (position : UInt64) : (position ^^^ 1).toNat = neighbour position.toNat := by
  rw [UInt64.toNat_xor, neighbour]
  split
  · next h => exact Nat.xor_one_of_even (Nat.even_iff.2 h)
  · next h => exact Nat.xor_one_of_odd (Nat.odd_iff.2 (Nat.mod_two_ne_zero.1 h))

/-- In a layer of whole pairs a position has its neighbour. -/
theorem neighbour_lt {position count : Nat} (h : position < 2 * count) :
    neighbour position < 2 * count := by
  rw [neighbour]
  split
  · omega
  · omega

/-- On the way up from a position of a tree no layer is read out of its range. -/
theorem siblings?_eq (hl : layer.length = 2 ^ depth) (hp : position.toNat < 2 ^ depth) :
    siblings? layer position = some (siblings depth layer position.toNat) := by
  induction depth generalizing layer position with
  | zero =>
    rw [siblings?, if_neg (by rw [hl]; decide)]
    rfl
  | succ depth ih =>
    rw [Nat.pow_succ, Nat.mul_comm] at hl hp
    have hpos : 0 < 2 ^ depth := Nat.pow_pos (by decide)
    have hhalf : (position / 2).toNat = position.toNat / 2 := rfl
    have hread : layer[(position ^^^ 1).toNat]?
        = some (layer.getD (neighbour position.toNat) default) := by
      have hlt : neighbour position.toNat < layer.length := hl ▸ neighbour_lt hp
      rw [toNat_xor_one, List.getD_eq_getElem?_getD, List.getElem?_eq_getElem hlt, Option.getD_some]
    have hrest : siblings? (parents layer) (position / 2)
        = some (siblings depth (parents layer) (position / 2).toNat) :=
      ih (by rw [length_parents]; omega) (by omega)
    rw [siblings?, if_pos (by omega), hread, hrest, hhalf]
    rfl

/-- Leaves that are no power of two have no path, whatever the index. -/
theorem path_of_not (h : ¬ ∃ depth, leaves.length = 2 ^ depth) (index : UInt64) :
    path leaves index = .error (.refused (.leafCountNotPowerOfTwo leaves.length)) := by
  rw [← isPowerOfTwo_iff] at h
  rw [path, if_pos h]

/-- The path of a leaf is its siblings, and its index counts on from the number of leaves. On the
way nothing overflows. -/
theorem path_of_lt (hl : leaves.length = 2 ^ depth) (hs : leaves.length < UInt64.size)
    (hi : index.toNat < leaves.length) : path leaves index
      = .ok (siblings depth leaves index.toNat, UInt64.ofNat leaves.length + index) := by
  have hpow : isPowerOfTwo leaves.length = true := isPowerOfTwo_iff.2 ⟨depth, hl⟩
  -- A power of two below `2 ^ 64` is at most `2 ^ 63`, and the index is below it.
  have hsum : (UInt64.ofNat leaves.length).toNat + index.toNat < UInt64.size := by
    rw [UInt64.toNat_ofNat_of_lt' hs]
    have hd : depth < 64 := (Nat.pow_lt_pow_iff_right (by decide)).1 (hl ▸ hs)
    have hle : 2 ^ (depth + 1) ≤ 2 ^ 64 := Nat.pow_le_pow_right (by decide) hd
    rw [Nat.pow_succ, ← hl] at hle
    rw [UInt64.size]
    omega
  rw [path, if_neg (not_not.2 hpow), if_pos hi, siblings?_eq hl (hl ▸ hi), (sum?_of_lt hsum).1]
  rfl

/-- Behind the leaves of a tree an index is refused with the number of leaves that it needs, as long
as that is a number of 64 bits; for the last index of all it is none. -/
theorem path_of_le (hl : leaves.length = 2 ^ depth) (hi : leaves.length ≤ index.toNat) :
    (index.toNat + 1 < UInt64.size → path leaves index
      = .error (.refused (.notEnoughLeaves (index.toNat + 1) leaves.length))) ∧
    (index.toNat + 1 = UInt64.size → path leaves index = .error (.abort .overflow)) := by
  have hpow : isPowerOfTwo leaves.length = true := isPowerOfTwo_iff.2 ⟨depth, hl⟩
  have hone : (1 : UInt64).toNat = 1 := rfl
  rw [path, if_neg (not_not.2 hpow), if_neg (Nat.not_lt.2 hi)]
  constructor
  · intro h
    obtain ⟨hsum, hneeded⟩ := sum?_of_lt (a := index) (b := 1) h
    rw [hone] at hneeded
    rw [hsum, ← hneeded]
    rfl
  · intro h
    have hsum : sum? index 1 = none := if_neg (by rw [hone, h]; exact Nat.lt_irrefl _)
    rw [hsum]
    rfl

/-- The path of the leaf at an index of the tree. -/
theorem path_eq {g : UInt64} (hl : leaves.length = 2 ^ depth) (hg : Gindex.check g depth = .ok ()) :
    path leaves (g - UInt64.ofNat (2 ^ depth))
      = .ok (siblings depth leaves (g.toNat - 2 ^ depth), g) := by
  obtain ⟨hd, hq⟩ := (Gindex.check_ok_iff g depth).1 hg
  obtain ⟨hle, hlt⟩ := (Gindex.div_eq_one_iff g.toNat depth).1 hq
  have hs : 2 ^ depth < UInt64.size := Nat.lt_of_le_of_lt hle g.toNat_lt
  have hn : (UInt64.ofNat (2 ^ depth)).toNat = 2 ^ depth := UInt64.toNat_ofNat_of_lt' hs
  have hsub : (g - UInt64.ofNat (2 ^ depth)).toNat = g.toNat - 2 ^ depth := by
    rw [UInt64.toNat_sub_of_le _ _ (UInt64.le_iff_toNat_le.2 (by rwa [hn])), hn]
  have hback : UInt64.ofNat (2 ^ depth) + (g - UInt64.ofNat (2 ^ depth)) = g := by
    rw [UInt64.add_comm, UInt64.sub_add_cancel]
  have hin : (g - UInt64.ofNat (2 ^ depth)).toNat < leaves.length := by
    rw [hsub, hl]
    rw [Nat.pow_succ] at hlt
    omega
  rw [path_of_lt hl (hl ▸ hs) hin, hsub, hl, hback]

end Checked

end TreeProver.Tree
