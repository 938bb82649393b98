import TreeProver.Natural

/-!
# Repeated operations

`repeated op unit x n` combines `n` copies of `x` with an operation, halving the count at every
step. With multiplication it is a power, with the addition of a curve it is a scalar multiple.
-/

namespace TreeProver

universe u

/-- Combines `n` copies of `x`, where `n` has at most `bits` binary digits. -/
@[specialize] def repeatedOver {α : Type u} (op : α → α → α) (unit x : α) :
    (bits n : Nat) → α
  | 0, _ => unit
  | bits + 1, n =>
    let half := repeatedOver op unit x bits (n / 2)
    let twice := op half half
    if n % 2 = 1 then op twice x else twice

/-- Combines `n` copies of `x`; no copy at all gives `unit`. -/
@[specialize] def repeated {α : Type u} (op : α → α → α) (unit x : α) (n : Nat) : α :=
  if n = 0 then unit else repeatedOver op unit x (n.log2 + 1) n

end TreeProver
