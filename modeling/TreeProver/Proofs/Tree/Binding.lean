import TreeProver.Proofs.Tree.Path

/-!
# Paths are binding

Two paths of equal length that restore the same root from the same index are the same path of the
same leaf, unless at some level they hash two different byte strings to the same digest. A path that
restores the root of a tree is the path of the leaf at its index, unless at some level it and the
tree hash different byte strings to the same digest. In both cases the collision is at hand.
-/

namespace TreeProver.Tree

/-- Two different strings of 64 bytes with the same digest. -/
def IsCollision (m m' : Bytes) : Prop :=
  m.length = 64 ∧ m'.length = 64 ∧ m ≠ m' ∧ sha256 m = sha256 m'

/-- What is hashed for a parent determines the node and its sibling. -/
theorem messageAt_inj {g : UInt64} {a b x y : Word} (h : messageAt g a x = messageAt g b y) :
    a = b ∧ x = y := by
  rw [messageAt, messageAt] at h
  split at h
  · obtain ⟨hx, ha⟩ := List.append_inj h (by rw [x.length_bytes, y.length_bytes])
    exact ⟨Word.ext ha, Word.ext hx⟩
  · obtain ⟨ha, hx⟩ := List.append_inj h (by rw [a.length_bytes, b.length_bytes])
    exact ⟨Word.ext ha, Word.ext hx⟩

/-- Equal parents have equal children, or their children collide. -/
theorem parentAt_binding {g : UInt64} {a b x y : Word} (h : parentAt g a x = parentAt g b y) :
    (a = b ∧ x = y) ∨ IsCollision (messageAt g a x) (messageAt g b y) := by
  rw [parentAt_eq, parentAt_eq] at h
  by_cases hm : messageAt g a x = messageAt g b y
  · exact .inl (messageAt_inj hm)
  · exact .inr ⟨length_messageAt g a x, length_messageAt g b y, hm, h⟩

/-- Paths of equal length that restore the same node are equal, or collide at some level. -/
theorem restore_binding {a b : Word} {path path' : List Word} {g : UInt64}
    (hl : path.length = path'.length) (h : restore a path g = restore b path' g) :
    (a = b ∧ path = path') ∨ ∃ (i : Nat) (m m' : Bytes), (messages a path g)[i]? = some m ∧
      (messages b path' g)[i]? = some m' ∧ IsCollision m m' := by
  induction path generalizing a b path' g with
  | nil =>
    obtain rfl := List.length_eq_zero_iff.1 hl.symm
    exact .inl ⟨h, rfl⟩
  | cons x path ih =>
    cases path' with
    | nil => simp at hl
    | cons y path' =>
      -- The levels above decide first: either they collide, or both parents are the same.
      rcases ih (by simpa using hl) h with ⟨hparent, rfl⟩ | ⟨i, m, m', hm, hm', hc⟩
      · rcases parentAt_binding hparent with ⟨rfl, rfl⟩ | hc
        · exact .inl ⟨rfl, rfl⟩
        · exact .inr ⟨0, _, _, rfl, rfl, hc⟩
      · exact .inr ⟨i + 1, m, m', hm, hm', hc⟩

/-- A path that restores the root of a tree is that of the leaf at its index, or it collides with
the tree at some level: there it and the node of the tree at the same position hash different
bytes to the same digest. -/
theorem restore_root_binding {leaves path : List Word} {leaf : Word} {g : UInt64} {depth : Nat}
    (hl : leaves.length = 2 ^ depth) (hg : Gindex.check g depth = .ok ())
    (hp : path.length = depth) (h : root leaves = .ok (restore leaf path g)) :
    (leaves[g.toNat - 2 ^ depth]? = some leaf ∧
        Tree.path leaves (g - UInt64.ofNat (2 ^ depth)) = .ok (path, g)) ∨
      ∃ (i : Nat) (m : Bytes), (messages leaf path g)[i]? = some m ∧
        IsCollision m (nodeMessage leaves i ((g.toNat - 2 ^ depth) / 2 ^ (i + 1))) := by
  obtain ⟨-, hq⟩ := (Gindex.check_ok_iff g depth).1 hg
  obtain ⟨hle, hlt⟩ := (Gindex.div_eq_one_iff g.toNat depth).1 hq
  have hpos : g.toNat - 2 ^ depth < 2 ^ depth := by
    rw [Nat.pow_succ] at hlt
    omega
  have hmod : g.toNat % 2 ^ depth = g.toNat - 2 ^ depth := by
    rw [Nat.mod_eq_sub_mod hle, Nat.mod_eq_of_lt hpos]
  -- The path of the leaf at the index restores the same root, so both paths are compared.
  have hroot := restore_siblings depth hl hpos hmod
  rw [root_eq hl, Except.ok.injEq, ← hroot] at h
  have hlen : (siblings depth leaves (g.toNat - 2 ^ depth)).length = depth :=
    length_siblings depth leaves _
  rcases restore_binding (hlen.trans hp.symm) h with ⟨ha, hpath⟩ | ⟨i, m, m', hm, hm', hc⟩
  · left
    rw [path_eq hl hg, hpath, ← ha, List.getD_eq_getElem?_getD]
    rw [List.getElem?_eq_getElem (by omega)]
    exact ⟨rfl, rfl⟩
  · right
    rw [messages_siblings depth hl hpos hmod, List.getElem?_map] at hm
    obtain ⟨j, hj, rfl⟩ := Option.map_eq_some_iff.1 hm
    obtain ⟨hi, rfl⟩ := List.getElem?_eq_some_iff.1 hj
    rw [List.getElem_range] at hc
    exact ⟨i, m', hm', hc.2.1, hc.1, hc.2.2.1.symm, hc.2.2.2.symm⟩

/-- Paths are binding up to a collision that is at hand. Two paths of equal length that restore the
same node from the same index belong to the same leaf and are equal, or at some level hash different
bytes to the same digest. A path that restores the root of a tree belongs to the leaf at its index
and is the path of that leaf, or at some level it and the tree hash different bytes to the same
digest. -/
theorem paths_binding :
    (∀ (g : UInt64) (leaf leaf' : Word) (path path' : List Word),
      path.length = path'.length → restore leaf path g = restore leaf' path' g →
        (leaf = leaf' ∧ path = path') ∨ ∃ (i : Nat) (m m' : Bytes),
          (messages leaf path g)[i]? = some m ∧ (messages leaf' path' g)[i]? = some m' ∧
            IsCollision m m') ∧
    ∀ (depth : Nat) (leaves : List Word) (g : UInt64) (leaf : Word) (path : List Word),
      leaves.length = 2 ^ depth → Gindex.check g depth = .ok () → path.length = depth →
        root leaves = .ok (restore leaf path g) →
          (leaves[g.toNat - 2 ^ depth]? = some leaf ∧
            Tree.path leaves (g - UInt64.ofNat (2 ^ depth)) = .ok (path, g)) ∨
          ∃ (i : Nat) (m : Bytes), (messages leaf path g)[i]? = some m ∧
            IsCollision m (nodeMessage leaves i ((g.toNat - 2 ^ depth) / 2 ^ (i + 1))) :=
  ⟨fun _ _ _ _ _ hl h ↦ restore_binding hl h, fun _ _ _ _ _ hl hg hp h ↦
    restore_root_binding hl hg hp h⟩

/-- In the tree over a zero and a one, the path of the one is binding. -/
theorem paths_binding_pair :
    ([Word.ofNat 0, Word.ofNat 1].length = 2 ^ (1 : Nat) ∧ Gindex.check 3 1 = .ok () ∧
      root [Word.ofNat 0, Word.ofNat 1] = .ok (restore (Word.ofNat 1) [Word.ofNat 0] 3)) ∧
    (([Word.ofNat 0, Word.ofNat 1][(3 : UInt64).toNat - 2 ^ (1 : Nat)]? = some (Word.ofNat 1) ∧
        Tree.path [Word.ofNat 0, Word.ofNat 1] (3 - UInt64.ofNat (2 ^ (1 : Nat)))
          = .ok ([Word.ofNat 0], 3)) ∨
      ∃ (i : Nat) (m : Bytes), (messages (Word.ofNat 1) [Word.ofNat 0] 3)[i]? = some m ∧
        IsCollision m (nodeMessage [Word.ofNat 0, Word.ofNat 1] i
          (((3 : UInt64).toNat - 2 ^ (1 : Nat)) / 2 ^ (i + 1)))) ∧
    ((Word.ofNat 1 = Word.ofNat 1 ∧ [Word.ofNat 0] = [Word.ofNat 0]) ∨
      ∃ (i : Nat) (m m' : Bytes), (messages (Word.ofNat 1) [Word.ofNat 0] 3)[i]? = some m ∧
        (messages (Word.ofNat 1) [Word.ofNat 0] 3)[i]? = some m' ∧ IsCollision m m') := by
  have hg : Gindex.check 3 1 = .ok () := (Gindex.check_ok_iff 3 1).2 (by decide)
  have hr : root [Word.ofNat 0, Word.ofNat 1] = .ok (restore (Word.ofNat 1) [Word.ofNat 0] 3) :=
    rfl
  refine ⟨⟨rfl, hg, hr⟩, ?_, ?_⟩
  · exact paths_binding.2 1 [Word.ofNat 0, Word.ofNat 1] 3 (Word.ofNat 1) [Word.ofNat 0] rfl hg rfl
      hr
  · exact paths_binding.1 3 (Word.ofNat 1) (Word.ofNat 1) [Word.ofNat 0] [Word.ofNat 0] rfl rfl

end TreeProver.Tree
