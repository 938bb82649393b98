import TreeProver.Tree.Gindex

/-!
# Depths of generalized indices

An index is accepted for a path of `d` siblings exactly when its quotient by `2 ^ d` is one: the
highest one of its binary digits is at place `d`.
-/

namespace TreeProver.Gindex

/-- A number is in the range of a depth exactly when its quotient by the power of two is one. -/
theorem div_eq_one_iff (n depth : Nat) :
    n / 2 ^ depth = 1 ↔ 2 ^ depth ≤ n ∧ n < 2 ^ (depth + 1) := by
  have hp : 0 < 2 ^ depth := Nat.pow_pos (by decide)
  rw [Nat.div_eq_iff hp, Nat.pow_succ]
  omega

/-- Whenever an index is refused, the refusal has a wording. -/
theorem message?_of_check {g : UInt64} {depth : Nat} {e : Error} (h : check g depth = .error e) :
    e.message? = some e.message := by
  rw [check] at h
  split at h
  · cases h
    rfl
  · next hd =>
    split at h
    · contradiction
    · cases h
      have hlt : depth + 1 < UInt64.size := by
        rw [maxDepth] at hd
        rw [UInt64.size]
        omega
      exact if_pos hlt

/-- An index is accepted for a path exactly when it is in the range of that depth. -/
theorem check_ok_iff (g : UInt64) (depth : Nat) :
    check g depth = .ok () ↔ depth < maxDepth ∧ g.toNat / 2 ^ depth = 1 := by
  rw [div_eq_one_iff, check]
  split
  · next h => simp [Nat.not_lt.2 h]
  · next h =>
    have hd : depth < maxDepth := Nat.lt_of_not_le h
    by_cases hg : g = 0
    · have hp : 0 < 2 ^ depth := Nat.pow_pos (by decide)
      simp [depth?, hg]
    · have hn : g.toNat ≠ 0 := fun hz ↦ hg (UInt64.toNat_inj.1 hz)
      simp [depth?, hg, hd, Nat.log2_eq_iff hn]

/-- An index that is accepted reads as such. -/
theorem isOk_check_iff (g : UInt64) (depth : Nat) :
    (check g depth).isOk = true ↔ depth < maxDepth ∧ g.toNat / 2 ^ depth = 1 := by
  rw [← check_ok_iff]
  cases check g depth with
  | ok u => simp [Except.isOk, Except.toBool]
  | error e => simp [Except.isOk, Except.toBool]

/-- The parent of a node is one level up. -/
theorem div_two_div_pow (n depth : Nat) : n / 2 / 2 ^ depth = n / 2 ^ (depth + 1) := by
  rw [Nat.div_div_eq_div_mul, Nat.pow_succ, Nat.mul_comm]

end TreeProver.Gindex
