import TreeProver.Proofs.Tree.Path
import TreeProver.Tree.Inclusion

/-!
# Composing paths

Going up along one path and then along another is going up along both. The second path sees the
index without the digits that the first one has used. If the first path ends at the root of a tree
that is itself a leaf of another tree, the two paths are one path in the tree below, and its index
is the outer index followed by the digits of the inner index below its first one.
-/

namespace TreeProver

namespace Gindex

variable {inner outer : UInt64} {m n : Nat}

/-- The digits behind an outer index leave it on division. -/
theorem mul_pow_add_div (outer : Nat) {inner depth : Nat} (h : inner < 2 ^ depth) :
    (outer * 2 ^ depth + inner) / 2 ^ depth = outer := by
  rw [Nat.mul_comm, Nat.mul_add_div (Nat.pow_pos (by decide)), Nat.div_eq_of_lt h, Nat.add_zero]

/-- Below the first digit of an index that is accepted for a path there are as many digits as
siblings. -/
theorem sub_pow_lt (h : check inner m = .ok ()) :
    2 ^ m ≤ inner.toNat ∧ inner.toNat - 2 ^ m < 2 ^ m := by
  obtain ⟨-, hq⟩ := (check_ok_iff inner m).1 h
  obtain ⟨hle, hlt⟩ := (div_eq_one_iff inner.toNat m).1 hq
  rw [Nat.pow_succ] at hlt
  omega

/-- An outer index followed by the digits of an inner one is an index, if the two depths together
are not too large, and it is accepted for that depth. -/
theorem exists_composed (hinner : check inner m = .ok ()) (houter : check outer n = .ok ())
    (hdepth : m + n < maxDepth) :
    ∃ g : UInt64, g.toNat = outer.toNat * 2 ^ m + (inner.toNat - 2 ^ m) ∧
      check g (m + n) = .ok () := by
  obtain ⟨-, hlt⟩ := sub_pow_lt hinner
  obtain ⟨-, hq⟩ := (check_ok_iff outer n).1 houter
  have hdiv : (outer.toNat * 2 ^ m + (inner.toNat - 2 ^ m)) / 2 ^ (m + n) = 1 := by
    rw [Nat.pow_add, ← Nat.div_div_eq_div_mul, mul_pow_add_div _ hlt, hq]
  have hsize : outer.toNat * 2 ^ m + (inner.toNat - 2 ^ m) < UInt64.size := by
    obtain ⟨-, hup⟩ := (div_eq_one_iff _ (m + n)).1 hdiv
    apply Nat.lt_of_lt_of_le hup
    exact Nat.pow_le_pow_right (by decide) hdepth
  have hg := UInt64.toNat_ofNat_of_lt' hsize
  refine ⟨UInt64.ofNat _, hg, ?_⟩
  rw [check_ok_iff, hg]
  exact ⟨hdepth, hdiv⟩

end Gindex

namespace Tree

/-- Going up along two paths, one after the other, is going up along both. -/
theorem restore_append (node : Word) (path path' : List Word) (g : UInt64) :
    restore node (path ++ path') g
      = restore (restore node path g) path' (UInt64.ofNat (g.toNat / 2 ^ path.length)) := by
  induction path generalizing node g with
  | nil =>
    rw [List.nil_append, List.length_nil, Nat.pow_zero, Nat.div_one, UInt64.ofNat_toNat]
    rfl
  | cons sibling path ih =>
    have hhalf : (g / 2).toNat = g.toNat / 2 := rfl
    rw [List.cons_append, restore, ih, hhalf, Gindex.div_two_div_pow]
    rfl

/-- Going up along a path depends on as many low digits of the index as the path has siblings. -/
theorem restore_congr (node : Word) (path : List Word) {g g' : UInt64}
    (h : g.toNat % 2 ^ path.length = g'.toNat % 2 ^ path.length) :
    restore node path g = restore node path g' := by
  induction path generalizing node g g' with
  | nil => rfl
  | cons sibling path ih =>
    have hhalf (g : UInt64) : (g / 2).toNat = g.toNat / 2 := rfl
    have hodd (g : UInt64) : g % 2 = 1 ↔ g.toNat % 2 = 1 := UInt64.toNat_inj.symm
    rw [List.length_cons, Nat.pow_succ, Nat.mul_comm] at h
    -- The lowest digit picks the order of this step, and the halved index has the others.
    have hlow : g.toNat % 2 = g'.toNat % 2 := by
      have h2 := congrArg (· % 2) h
      simp only [Nat.mod_mul_right_mod] at h2
      exact h2
    have hhigh : (g / 2).toNat % 2 ^ path.length = (g' / 2).toNat % 2 ^ path.length := by
      rw [hhalf, hhalf, ← Nat.mod_mul_right_div_self, ← Nat.mod_mul_right_div_self, h]
    have hparent : parentAt g node sibling = parentAt g' node sibling := by
      simp only [parentAt, hodd, hlow]
    rw [restore, restore, hparent, ih _ hhigh]

end Tree

/-- Inclusions compose. If the root of one consistent witness is the leaf of another and the two
paths together are at most 63 siblings long, then the outer index followed by the digits of the
inner one fits 64 bits, and with it the leaf of the first is consistent with the root of the second
along both paths. Whatever the witnesses, going up along two paths is going up along the first and
then along the second, with the index divided by the power of two for the first. -/
theorem Inclusion.composed_isConsistent :
    (∀ inner outer : Inclusion, inner.isConsistent = true → outer.isConsistent = true →
      outer.leaf = inner.root → inner.path.length + outer.path.length < 64 →
        2 ^ inner.path.length ≤ inner.gindex.toNat ∧ ∃ g : UInt64,
          g.toNat = outer.gindex.toNat * 2 ^ inner.path.length
            + (inner.gindex.toNat - 2 ^ inner.path.length) ∧
          Inclusion.isConsistent ⟨outer.root, inner.leaf, g, inner.path ++ outer.path⟩ = true) ∧
    ∀ (leaf : Word) (path path' : List Word) (g : UInt64),
      Tree.restore leaf (path ++ path') g = Tree.restore (Tree.restore leaf path g) path'
        (UInt64.ofNat (g.toNat / 2 ^ path.length)) := by
  refine ⟨?_, Tree.restore_append⟩
  intro inner outer hinner houter hleaf hdepth
  simp only [isConsistent_iff, Gindex.isOk_check_iff, ← Gindex.check_ok_iff] at hinner houter ⊢
  obtain ⟨hinner, hinnerRoot⟩ := hinner
  obtain ⟨houter, houterRoot⟩ := houter
  obtain ⟨hle, hlt⟩ := Gindex.sub_pow_lt hinner
  obtain ⟨g, hg, hcheck⟩ := Gindex.exists_composed hinner houter hdepth
  have hlow : g.toNat % 2 ^ inner.path.length = inner.gindex.toNat % 2 ^ inner.path.length := by
    rw [hg, Nat.mul_comm, Nat.mul_add_mod, Nat.mod_eq_sub_mod hle]
  have hhigh : UInt64.ofNat (g.toNat / 2 ^ inner.path.length) = outer.gindex := by
    rw [hg, Gindex.mul_pow_add_div _ hlt, UInt64.ofNat_toNat]
  refine ⟨hle, g, hg, ?_, ?_⟩
  · rw [List.length_append]
    exact hcheck
  · have hmiddle : outer.leaf = Tree.restore inner.leaf inner.path g := by
      rw [hleaf, hinnerRoot, Tree.restore_congr inner.leaf inner.path hlow]
    calc outer.root = Tree.restore outer.leaf outer.path outer.gindex := houterRoot
      _ = Tree.restore (Tree.restore inner.leaf inner.path g) outer.path outer.gindex := by
        rw [hmiddle]
      _ = Tree.restore inner.leaf (inner.path ++ outer.path) g := by
        rw [Tree.restore_append, hhigh]

/-- A leaf below a node that is itself a leaf: the indices 3 and 2 compose to 5. -/
theorem Inclusion.composed_isConsistent_five :
    let node := Tree.restore (Word.ofNat 1) [Word.ofNat 0] 3
    let inner : Inclusion := ⟨node, Word.ofNat 1, 3, [Word.ofNat 0]⟩
    let outer : Inclusion := ⟨Tree.restore node [Word.ofNat 2] 2, node, 2, [Word.ofNat 2]⟩
    inner.isConsistent = true ∧ outer.isConsistent = true ∧ outer.leaf = inner.root ∧
      inner.path.length + outer.path.length < 64 ∧
      Inclusion.isConsistent ⟨outer.root, inner.leaf, 5, [Word.ofNat 0, Word.ofNat 2]⟩ = true := by
  intro node inner outer
  have hinner : inner.isConsistent = true := by
    apply inner.isConsistent_iff.2
    exact ⟨(Gindex.isOk_check_iff 3 1).2 (by decide), by dsimp only [inner, node]⟩
  have houter : outer.isConsistent = true := by
    apply outer.isConsistent_iff.2
    exact ⟨(Gindex.isOk_check_iff 2 1).2 (by decide), by dsimp only [outer]⟩
  obtain ⟨-, g, hg, h⟩ := composed_isConsistent.1 inner outer hinner houter rfl (by decide)
  obtain rfl : g = 5 := UInt64.toNat_inj.1 hg
  exact ⟨hinner, houter, rfl, by decide, h⟩

end TreeProver
