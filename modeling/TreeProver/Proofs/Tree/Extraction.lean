import TreeProver.Proofs.Tree.Subtrees
import TreeProver.Tree.Inclusion

/-!
# Paths of every index

The path of a leaf and its witness are found in steps that abort where a sum of 64-bit numbers
overflows or a list is read out of its range. For every list of leaves and every index of 64 bits
they come to an answer, but for one: over a power of two leaves the number of leaves that the last
index of all needs is past the range, and instead of refusing the index they abort.
-/

namespace TreeProver

namespace Tree

variable {leaves : List Word} {index : UInt64} {depth : Nat} {α β : Type}

/-! ### What is read beside the path -/

/-- The root over leaves, which is the first node of the last layer, if there is one. -/
def root? (leaves : List Word) : Option (Except Error Word) :=
  if isPowerOfTwo leaves.length then do
    let root ← (lastLayer leaves)[0]?
    some (.ok root)
  else some (.error (.leafCountNotPowerOfTwo leaves.length))

/-- The last layer of a tree has a node. -/
theorem root?_eq (leaves : List Word) : root? leaves = some (root leaves) := by
  rw [root?, root]
  split
  · next h =>
    obtain ⟨depth, hl⟩ := isPowerOfTwo_iff.1 h
    rw [lastLayer_eq depth hl, hl, Nat.log2_two_pow, layerAbove_eq_singleton hl]
    rfl
  · rfl

/-- Only the leaves of a tree have paths. -/
theorem lt_of_path_ok {found : List Word × UInt64} (h : path leaves index = .ok found) :
    isPowerOfTwo leaves.length = true ∧ index.toNat < leaves.length := by
  rw [path] at h
  split at h
  · contradiction
  · next hpow =>
    split at h
    · next hi => exact ⟨not_not.1 hpow, hi⟩
    · cases hsum : sum? index 1 with
      | none =>
        rw [hsum] at h
        contradiction
      | some needed =>
        rw [hsum] at h
        contradiction

end Tree

namespace Inclusion

variable {leaves : List Word} {index : UInt64}

/-- The witness with a path and its index, for a leaf of the tree over the given leaves. -/
def ofPath (leaves : List Word) (index : UInt64) (found : List Word × UInt64) : Inclusion where
  root := (Tree.layerAbove leaves.length.log2 leaves).headD default
  leaf := leaves.getD index.toNat default
  gindex := found.2
  path := found.1

/-- A witness consists of the path of its leaf and what belongs to it. With a path, there are a root
and a leaf. -/
theorem ofLeaves_eq (leaves : List Word) (index : UInt64) :
    ofLeaves leaves index = (Tree.path leaves index).map (ofPath leaves index) := by
  rw [ofLeaves]
  cases hpath : Tree.path leaves index with
  | error e => rfl
  | ok found =>
    obtain ⟨hpow, hi⟩ := Tree.lt_of_path_ok hpath
    have hleaf : leaves[index.toNat]? = some (leaves.getD index.toNat default) := by
      rw [List.getD_eq_getElem?_getD, List.getElem?_eq_getElem hi, Option.getD_some]
    rw [Tree.root, if_pos hpow, hleaf]
    rfl

end Inclusion

namespace Tree

variable {leaves : List Word} {index : UInt64} {depth : Nat} {α β : Type}

/-! ### Answers -/

/-- An answer for leaves and an index. Leaves that are no power of two are refused for their number;
an index behind the leaves of a tree is refused with the number of leaves that it needs, which is
more than there are; and every other index has a result. -/
structure Answers (leaves : List Word) (index : UInt64) (r : Except Failure α) : Prop where
  refuses_count : r = .error (.refused (.leafCountNotPowerOfTwo leaves.length)) ↔
    ¬ ∃ depth, leaves.length = 2 ^ depth
  refuses_index : (∃ needed, needed = index.toNat + 1 ∧ leaves.length < needed ∧
      r = .error (.refused (.notEnoughLeaves needed leaves.length))) ↔
    (∃ depth, leaves.length = 2 ^ depth) ∧ leaves.length ≤ index.toNat
  finds : (∃ x, r = .ok x) ↔ (∃ depth, leaves.length = 2 ^ depth) ∧ index.toNat < leaves.length

/-- What is extracted for leaves and an index. Over a power of two leaves a sum overflows for the
last index of all, and nowhere else; no list is read out of its range; and where no sum overflows,
there is an answer. -/
structure Extracts (leaves : List Word) (index : UInt64) (r : Except Failure α) : Prop where
  overflows : r = .error (.abort .overflow) ↔
    (∃ depth, leaves.length = 2 ^ depth) ∧ index.toNat + 1 = UInt64.size
  stays_in_range : r ≠ .error (.abort .outOfRange)
  answers : r ≠ .error (.abort .overflow) → Answers leaves index r

/-- What is made of a result depends on leaves and index as the result does. -/
theorem Extracts.map {r : Except Failure α} (h : Extracts leaves index r) (f : α → β) :
    Extracts leaves index (r.map f) := by
  have herror : ∀ e, r.map f = .error e ↔ r = .error e := by
    cases r with
    | error e => simp [Except.map]
    | ok x => simp [Except.map]
  have hok : (∃ y, r.map f = .ok y) ↔ ∃ x, r = .ok x := by
    cases r with
    | error e => simp [Except.map]
    | ok x => simp [Except.map]
  refine ⟨(herror _).trans h.overflows, (herror _).not.2 h.stays_in_range, fun he ↦ ?_⟩
  obtain ⟨hcount, hindex, hfinds⟩ := h.answers ((herror _).not.1 he)
  refine ⟨(herror _).trans hcount, ?_, hok.trans hfinds⟩
  simpa only [herror] using hindex

/-- A path is extracted for every index. -/
theorem extracts_path (index : UInt64) (hs : leaves.length < UInt64.size) :
    Extracts leaves index (path leaves index) := by
  have hindex : index.toNat < UInt64.size := index.toNat_lt
  by_cases hpow : ∃ depth, leaves.length = 2 ^ depth
  · obtain ⟨depth, hl⟩ := hpow
    by_cases hi : index.toNat < leaves.length
    · rw [path_of_lt hl hs hi]
      refine ⟨iff_of_false nofun (by omega), nofun, fun _ ↦ ⟨?_, ?_, ?_⟩⟩
      · simp [hl]
      · simp [hi]
      · exact iff_of_true ⟨_, rfl⟩ ⟨⟨depth, hl⟩, hi⟩
    · have hi : leaves.length ≤ index.toNat := Nat.not_lt.1 hi
      rcases Nat.lt_or_eq_of_le hindex with hlt | hlast
      · rw [(path_of_le hl hi).1 hlt]
        refine ⟨iff_of_false nofun (by omega), nofun, fun _ ↦ ⟨?_, ?_, ?_⟩⟩
        · simp [hl]
        · exact iff_of_true ⟨_, rfl, by omega, rfl⟩ ⟨⟨depth, hl⟩, hi⟩
        · simp [hi]
      · rw [(path_of_le hl hi).2 hlast]
        exact ⟨iff_of_true rfl ⟨⟨depth, hl⟩, hlast⟩, nofun, fun h ↦ absurd rfl h⟩
  · rw [path_of_not hpow]
    refine ⟨iff_of_false nofun fun h ↦ hpow h.1, nofun, fun _ ↦ ⟨?_, ?_, ?_⟩⟩
    · simp [hpow]
    · simp [hpow]
    · simp [hpow]

/-- The path of a leaf and its witness are found for every index, but for the last one of all. For
every list of leaves, of which there are as many as a number of 64 bits says, and every index, the
steps to the path and to the witness overflow exactly when there is a power of two leaves and one
more than the index is no number of 64 bits; then they abort. Everywhere else nothing overflows and
nothing is read out of its range, the first node of the last layer included, and the result is the
answer that the leaves and the index ask for. -/
theorem paths_of_all_indices_but_the_last (leaves : List Word) (index : UInt64)
    (hs : leaves.length < UInt64.size) :
    Extracts leaves index (path leaves index) ∧
      Extracts leaves index (Inclusion.ofLeaves leaves index) ∧
      root? leaves = some (root leaves) := by
  have hpath := extracts_path index hs
  refine ⟨hpath, ?_, root?_eq leaves⟩
  rw [Inclusion.ofLeaves_eq]
  exact hpath.map _

/-- Over four leaves the last index but one needs as many leaves as the largest number of 64 bits
says, the index 2 has a witness, and for the last index of all there is no answer. -/
theorem paths_of_all_indices_but_the_last_four :
    let leaves := (List.range 4).map Word.ofNat
    leaves.length < UInt64.size ∧
    path leaves 18446744073709551614
      = .error (.refused (.notEnoughLeaves 18446744073709551615 4)) ∧
    (∃ w, Inclusion.ofLeaves leaves 2 = .ok w) ∧
    Inclusion.ofLeaves leaves 18446744073709551615 = .error (.abort .overflow) := by
  intro leaves
  have hs : leaves.length < UInt64.size := by decide
  have hpow : ∃ depth, leaves.length = 2 ^ depth := ⟨2, rfl⟩
  obtain ⟨hrefused, -, -⟩ := paths_of_all_indices_but_the_last leaves 18446744073709551614 hs
  obtain ⟨-, hfound, -⟩ := paths_of_all_indices_but_the_last leaves 2 hs
  obtain ⟨-, hlast, -⟩ := paths_of_all_indices_but_the_last leaves 18446744073709551615 hs
  refine ⟨hs, ?_, ?_, hlast.overflows.2 ⟨hpow, rfl⟩⟩
  · have hanswers := hrefused.answers fun h ↦ absurd (hrefused.overflows.1 h).2 (by decide)
    obtain ⟨_, rfl, -, h⟩ := hanswers.refuses_index.2 ⟨hpow, by decide⟩
    exact h
  · have hanswers := hfound.answers fun h ↦ absurd (hfound.overflows.1 h).2 (by decide)
    exact hanswers.finds.2 ⟨hpow, by decide⟩

/-- For the last index of all over a single leaf the number of leaves that are needed overflows:
there is neither a path nor a witness, and no refusal that says how many leaves would be needed. -/
theorem last_index_overflows :
    [(default : Word)].length ≤ (18446744073709551615 : UInt64).toNat ∧
    path [default] 18446744073709551615 = .error (.abort .overflow) ∧
    Inclusion.ofLeaves [default] 18446744073709551615 = .error (.abort .overflow) ∧
    ¬ Answers [default] 18446744073709551615 (path [default] 18446744073709551615) := by
  have hpath : path [default] 18446744073709551615 = .error (.abort .overflow) := rfl
  refine ⟨by decide, hpath, rfl, fun h ↦ ?_⟩
  obtain ⟨_, -, -, h⟩ := h.refuses_index.2 ⟨⟨0, rfl⟩, by decide⟩
  rw [hpath] at h
  exact absurd h nofun

end Tree

end TreeProver
