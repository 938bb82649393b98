import TreeProver.Proofs.Tree.Path
import TreeProver.Tree.Inclusion

/-!
# Replacing a leaf

The path of a leaf holds nodes beside the way up and none on it. Another leaf at the same position
therefore has the same path, and that path restores the root of the changed tree.
-/

namespace TreeProver.Tree

/-- Replacing a node changes no parent but its own. -/
theorem exists_parents_set (layer : List Word) (position : Nat) (x : Word) :
    ∃ y, parents (layer.set position x) = (parents layer).set (position / 2) y := by
  induction layer using parents.induct generalizing position with
  | case1 a b rest ih =>
    rcases position with - | - | position
    · exact ⟨sha256Pair x b, rfl⟩
    · exact ⟨sha256Pair a x, rfl⟩
    · obtain ⟨y, hy⟩ := ih position
      refine ⟨y, ?_⟩
      have hhalf : (position + 1 + 1) / 2 = position / 2 + 1 := by omega
      rw [hhalf, List.set_cons_succ, List.set_cons_succ, parents, hy, parents, List.set_cons_succ]
  | case2 layer hl =>
    rcases layer with - | ⟨a, - | ⟨b, rest⟩⟩
    · exact ⟨x, rfl⟩
    · cases position with
      | zero => exact ⟨x, rfl⟩
      | succ position => exact ⟨x, rfl⟩
    · exact absurd rfl (hl a b rest)

/-- A node is not its own neighbour. -/
theorem neighbour_ne (position : Nat) : neighbour position ≠ position := by
  rw [neighbour]
  split
  · omega
  · omega

/-- The siblings along the way up do not depend on the node they are for. -/
theorem siblings_set (levels : Nat) (layer : List Word) (position : Nat) (x : Word) :
    siblings levels (layer.set position x) position = siblings levels layer position := by
  induction levels generalizing layer position x with
  | zero => rfl
  | succ levels ih =>
    obtain ⟨y, hy⟩ := exists_parents_set layer position x
    have hne : position ≠ neighbour position := (neighbour_ne position).symm
    rw [siblings, siblings, hy, ih, List.getD_eq_getElem?_getD, List.getElem?_set_ne hne,
      ← List.getD_eq_getElem?_getD]

/-- The path of a leaf restores the root of the tree in which another leaf takes its place. -/
theorem root_set {leaves : List Word} {depth position : Nat} {g : UInt64}
    (hl : leaves.length = 2 ^ depth) (hp : position < 2 ^ depth)
    (hg : g.toNat % 2 ^ depth = position) (x : Word) :
    root (leaves.set position x) = .ok (restore x (siblings depth leaves position) g) := by
  have hset : (leaves.set position x).length = 2 ^ depth := by rw [List.length_set, hl]
  have hx : (leaves.set position x).getD position default = x := by
    rw [List.getD_eq_getElem?_getD, List.getElem?_set_self (by omega), Option.getD_some]
  rw [root_eq hset, ← restore_siblings depth hset hp hg, hx, siblings_set]

/-- The index of a leaf counts on from the number of leaves, and names a node as deep as the
tree. -/
theorem check_leafIndex {depth : Nat} {index : UInt64} (hd : depth < Gindex.maxDepth)
    (hi : index.toNat < 2 ^ depth) :
    (UInt64.ofNat (2 ^ depth) + index).toNat = 2 ^ depth + index.toNat ∧
      Gindex.check (UInt64.ofNat (2 ^ depth) + index) depth = .ok () := by
  have hle : 2 ^ (depth + 1) ≤ 2 ^ 64 := Nat.pow_le_pow_right (by decide) hd
  rw [Nat.pow_succ] at hle
  have hn : (UInt64.ofNat (2 ^ depth)).toNat = 2 ^ depth :=
    UInt64.toNat_ofNat_of_lt' (by rw [UInt64.size]; omega)
  have hg : (UInt64.ofNat (2 ^ depth) + index).toNat = 2 ^ depth + index.toNat := by
    rw [UInt64.toNat_add, hn, Nat.mod_eq_of_lt (by omega)]
  refine ⟨hg, ?_⟩
  rw [Gindex.check_ok_iff, Gindex.div_eq_one_iff, hg, Nat.pow_succ]
  omega

/-- The path of a leaf stays valid when the leaf is replaced. For every position of a tree over a
power of two leaves there is a path, as long as the tree is deep and with an index that is accepted
for it, which restores from any leaf the root of the tree that has this leaf at the position. From
the leaf that is there it restores the root itself, so its witness is consistent. -/
theorem path_valid_under_replacement (leaves : List Word) (depth : Nat) (index : UInt64)
    (hl : leaves.length = 2 ^ depth) (hle : leaves.length ≤ 2 ^ (63 : Nat))
    (hi : index.toNat < leaves.length) :
    ∃ (p : List Word) (g : UInt64), path leaves index = .ok (p, g) ∧
      2 ^ p.length = leaves.length ∧ g.toNat = leaves.length + index.toNat ∧
      Gindex.check g p.length = .ok () ∧
      (∀ x, root (leaves.set index.toNat x) = .ok (restore x p g)) ∧
      root leaves = .ok (restore leaves[index.toNat] p g) ∧
      ∃ w, Inclusion.ofLeaves leaves index = .ok w ∧ root leaves = .ok w.root ∧
        w.leaf = leaves[index.toNat] ∧ w.gindex = g ∧ w.path = p ∧ w.isConsistent = true := by
  have hd : depth < Gindex.maxDepth := by
    have h63 : depth ≤ 63 := (Nat.pow_le_pow_iff_right (by decide)).1 (hl ▸ hle)
    rw [Gindex.maxDepth]
    omega
  obtain ⟨hg, hc⟩ := check_leafIndex hd (hl ▸ hi)
  have hmod : (UInt64.ofNat (2 ^ depth) + index).toNat % 2 ^ depth = index.toNat := by
    rw [hg, Nat.add_mod_left, Nat.mod_eq_of_lt (hl ▸ hi)]
  have hset := fun x ↦ root_set hl (hl ▸ hi) hmod x
  have hroot := hset leaves[index.toNat]
  rw [List.set_getElem_self] at hroot
  have hpath := path_of_lt hl (Nat.lt_of_le_of_lt hle (by decide)) hi
  rw [hl] at hpath
  refine ⟨_, _, hpath, ?_, ?_, ?_, hset, hroot, ⟨_, leaves[index.toNat], _, _⟩, ?_, hroot, rfl, rfl,
    rfl, ?_⟩
  · rw [length_siblings, hl]
  · rw [hg, hl]
  · rw [length_siblings, hc]
  · rw [Inclusion.ofLeaves, hpath, hroot, List.getElem?_eq_getElem hi]
    rfl
  · rw [Inclusion.isConsistent, length_siblings, hc]
    simp [Except.isOk, Except.toBool]

/-- In the tree over four leaves, the path of the third one stays valid when it is replaced. -/
theorem path_valid_under_replacement_four :
    ((List.range 4).map Word.ofNat).length = 2 ^ (2 : Nat) ∧
    ((List.range 4).map Word.ofNat).length ≤ 2 ^ (63 : Nat) ∧
    (2 : UInt64).toNat < ((List.range 4).map Word.ofNat).length ∧
    ∃ (p : List Word) (g : UInt64), path ((List.range 4).map Word.ofNat) 2 = .ok (p, g) ∧
      2 ^ p.length = 4 ∧ g.toNat = 6 ∧ Gindex.check g p.length = .ok () ∧
      (∀ x, root (((List.range 4).map Word.ofNat).set 2 x) = .ok (restore x p g)) ∧
      root ((List.range 4).map Word.ofNat) = .ok (restore (Word.ofNat 2) p g) := by
  refine ⟨rfl, by decide, by decide, ?_⟩
  obtain ⟨p, g, hp, hl, hg, hc, hset, hroot, -⟩ :=
    path_valid_under_replacement ((List.range 4).map Word.ofNat) 2 2 rfl (by decide) (by decide)
  exact ⟨p, g, hp, hl, hg, hc, hset, hroot⟩

end TreeProver.Tree
