import TreeProver.Groth16.Prove
import TreeProver.Proofs.Traversal

/-!
# When proving reaches its end

Proving stops early only for a system that is too large for a domain, for entries outside the
assignment, for matrices or assignments with fewer rows than their counts say, and for keys without
points. Otherwise there is a proof, whether or not the assignment satisfies the system.
-/

namespace TreeProver

/-- There is a domain for as many values as the largest one has points. -/
theorem Domain.exists_ofSize {n : Nat} (h : n ≤ 2 ^ maxLevels) : ∃ d, ofSize? n = some d := by
  have hl : levelsFor n ≤ maxLevels := by
    rw [levelsFor]
    split
    · exact Nat.zero_le _
    · next hn => exact (Nat.log2_lt (by omega)).2 (by omega)
  exact ⟨_, if_neg (Nat.not_lt.2 hl)⟩

namespace Groth16

/-- The values of rows are found exactly when every row has one. -/
theorem exists_rowValues_iff {z : Array Fr} {rows : List Row} :
    (∃ xs, rowValues z rows = .ok xs) ↔ ∀ row ∈ rows, ∃ x, row.eval? z = some x := by
  rw [rowValues, Except.exists_mapM_ok_iff]
  refine forall₂_congr fun row _ ↦ ?_
  cases row.eval? z with
  | none => simp
  | some x => simp

/-- A matrix has values for all of its rows. -/
def InRange (m : R1cs) (z : Array Fr) : Prop :=
  ∀ row ∈ m.a ++ m.b ++ m.c, ∃ x, row.eval? z = some x

/-- The quotient is found when all rows have values and are as many as their counts say. -/
theorem quotient_ok {m : R1cs} {z : Array Fr} (domain : Domain) (h : InRange m z)
    (hc : m.constraints ≤ m.c.length) (hz : m.instances ≤ z.size) :
    ∃ q, quotient m domain z = .ok q := by
  have hrows (n : Nat) (rows : List Row) (hm : ∀ row ∈ rows, row ∈ m.a ++ m.b ++ m.c) :
      ∃ xs, rowValues z (rows.take n) = .ok xs :=
    exists_rowValues_iff.2 fun row hr ↦ h row (hm row (List.mem_of_mem_take hr))
  obtain ⟨a, ha⟩ :=
    hrows (min m.constraints (min m.a.length m.b.length)) m.a fun row hr ↦ by simp [hr]
  obtain ⟨b, hb⟩ :=
    hrows (min m.constraints (min m.a.length m.b.length)) m.b fun row hr ↦ by simp [hr]
  obtain ⟨c, hcv⟩ := hrows m.constraints m.c fun row hr ↦ by simp [hr]
  have hle : ¬ (m.c.length < m.constraints ∨ z.size < m.instances) := by omega
  simp only [quotient, ha, hb, hcv, hle, bind, Except.bind, ↓reduceIte]
  exact ⟨_, rfl⟩

/-- A proof is what is combined from the key, the assignment and some quotient. -/
theorem prove_eq_combine {k : ProvingKey} {m : R1cs} {z : Array Fr} (x y : Fr) {d : Domain}
    (hd : Domain.ofSize? (m.constraints + m.instances) = some d) (h : InRange m z)
    (hc : m.constraints ≤ m.c.length) (hz : m.instances ≤ z.size) :
    ∃ q, prove k m x y z = (combine k x y q ((z.toList.take m.instances).drop 1)
      (z.toList.drop m.instances)).mapError .abort := by
  obtain ⟨q, hq⟩ := quotient_ok d h hc hz
  refine ⟨q, ?_⟩
  simp only [prove, hd, hq]
  cases combine k x y q ((z.toList.take m.instances).drop 1) (z.toList.drop m.instances) <;> rfl

/-- The columns of a key have points. -/
structure HasPoints (k : ProvingKey) : Prop where
  a : k.aColumns ≠ []
  b : k.bColumns ≠ []
  b2 : k.bColumns2 ≠ []

/-- A key with points and an assignment in range give a proof. -/
theorem prove_ok {k : ProvingKey} {m : R1cs} {z : Array Fr} (x y : Fr) {d : Domain}
    (hd : Domain.ofSize? (m.constraints + m.instances) = some d) (h : InRange m z)
    (hc : m.constraints ≤ m.c.length) (hz : m.instances ≤ z.size) (hk : HasPoints k) :
    ∃ points, prove k m x y z = .ok points := by
  obtain ⟨q, hq⟩ := prove_eq_combine (k := k) x y hd h hc hz
  obtain ⟨a, as, ha⟩ := List.exists_cons_of_ne_nil hk.a
  obtain ⟨b, bs, hb⟩ := List.exists_cons_of_ne_nil hk.b
  obtain ⟨b2, b2s, hb2⟩ := List.exists_cons_of_ne_nil hk.b2
  have hsecond : ∃ p, secondInFirst k x y
      ((z.toList.take m.instances).drop 1 ++ z.toList.drop m.instances) = .ok p := by
    rw [secondInFirst, hb]
    split
    · exact ⟨_, rfl⟩
    · exact ⟨_, rfl⟩
  obtain ⟨p, hp⟩ := hsecond
  rw [hq]
  simp only [combine, ha, hp, hb2]
  exact ⟨_, rfl⟩

end Groth16

end TreeProver
