import TreeProver.Build
import TreeProver.Proofs.Layout.Growth

/-!
# What proving goes through

A proof is there only when the layout of the statement violates none of its own gates, has the shape
of the stored system, and the backend takes the assignment. It then carries the commitments of the
statement. A violated gate is refused by its number.
-/

namespace TreeProver

open Circuit

/-- The shape of a system is that of an assignment exactly when the three counts are. -/
theorem R1cs.checkShape_ok_iff {r : R1cs} {instances witnesses constraints : Nat} :
    r.checkShape instances witnesses constraints = .ok () ↔
      r.instances = instances ∧ r.witnesses = witnesses ∧ r.constraints = constraints := by
  rw [R1cs.checkShape]
  split
  · next h => simp [h]
  · next hi =>
    split
    · next h => simp [h]
    · next hw =>
      split
      · next h => simp [h]
      · next hc => simp [not_not.1 hi, not_not.1 hw, not_not.1 hc]

variable {γ : Type} [Computation γ]

namespace Build

/-- The values of a statement are those of a layout for proving that violates no gate. -/
theorem solved_ok_iff {f : Committed γ} {s : Layout} :
    solved f = .ok s ↔ f.layout .proving = .ok s ∧ s.firstViolated = .ok none := by
  rw [solved]
  cases hl : f.layout .proving with
  | error e => simp [bind, Except.bind]
  | ok t =>
    rcases hv : t.firstViolated with e | _ | i
    · simp only [bind, Except.bind, hv, reduceCtorEq, Except.ok.injEq, false_iff, not_and]
      rintro rfl
      simp [hv]
    · simp only [bind, Except.bind, hv, Except.ok.injEq, iff_self_and]
      rintro rfl
      exact hv
    · simp only [bind, Except.bind, hv, reduceCtorEq, Except.ok.injEq, false_iff, not_and]
      rintro rfl
      simp [hv]

/-- The assignment of a statement is that of a layout that violates no gate and has the shape of the
stored system. -/
theorem assignment_ok_iff {b : Build} {f : Committed γ} {z : Array Fr} :
    b.assignment f = .ok z ↔ ∃ s, f.layout .proving = .ok s ∧ s.firstViolated = .ok none ∧
      b.r1cs.checkShape s.instances s.lower.witnesses s.lower.rows.size = .ok () ∧
      z = s.assignment := by
  rw [assignment]
  cases hs : solved f with
  | error e =>
    simp only [bind, Except.bind, reduceCtorEq, false_iff, not_exists]
    rintro s ⟨hl, hv, -⟩
    rw [solved_ok_iff.2 ⟨hl, hv⟩] at hs
    contradiction
  | ok s =>
    obtain ⟨hl, hv⟩ := solved_ok_iff.1 hs
    simp only [hl, Except.ok.injEq, bind, Except.bind, exists_eq_left', hv, true_and]
    cases hc : b.r1cs.checkShape s.instances s.lower.witnesses s.lower.rows.size with
    | error e => simp
    | ok u => simp [Layout.assignment, eq_comm]

variable [Backend]

/-- The points of a proof are those that the backend finds for the assignment and its blinding. -/
theorem points_ok_iff {b : Build} {z : Array Fr} {points : Groth16.Points} :
    b.points z = .ok points ↔
      Backend.prove b.key b.r1cs (blinding z).1 (blinding z).2 z = .ok points := by
  rw [Build.points]
  rcases Backend.prove b.key b.r1cs (blinding z).1 (blinding z).2 z with e | ps
  · cases e <;> simp
  · simp

/-- A proof is the exchanged form of the points for the assignment, with the commitments of the
statement. -/
theorem prove_ok_iff {b : Build} {f : Committed γ} {p : Proof} :
    b.prove f = .ok p ↔ ∃ inputHash outputHash z points, f.inputHash = some inputHash ∧
      f.outputHash = some outputHash ∧ b.assignment f = .ok z ∧ b.points z = .ok points ∧
      p = Proof.ofPoints points inputHash outputHash := by
  rw [prove]
  cases f.inputHash with
  | none => simp
  | some inputHash =>
    cases f.outputHash with
    | none => simp
    | some outputHash =>
      cases b.assignment f with
      | error e => simp
      | ok z =>
        cases hp : b.points z with
        | error e => simp [hp, bind, Except.bind]
        | ok points => simp [hp, bind, Except.bind, eq_comm]

/-- A statement whose layout violates a gate is refused with the number of the gate. -/
theorem prove_of_violated (b : Build) {f : Committed γ} {inputHash outputHash : Word}
    (hi : f.inputHash = some inputHash) (ho : f.outputHash = some outputHash) {s : Layout}
    (hl : f.layout .proving = .ok s) {i : Nat} (hv : s.firstViolated = .ok (some i)) :
    b.prove f = .error (.refused (.unsatisfied (toString i))) := by
  simp only [prove, hi, ho, assignment, solved, hl, hv, bind, Except.bind]

/-- A statement is refused as soon as its layout does not meet a demand. -/
theorem exists_unsatisfied (b : Build) {f : Committed γ} {inputHash outputHash : Word}
    (hi : f.inputHash = some inputHash) (ho : f.outputHash = some outputHash) {s : Layout}
    (hl : f.layout .proving = .ok s) (hf : s.Filled) (hm : s.mode = .proving)
    (hs : ¬ s.Satisfied) : ∃ i, b.prove f = .error (.refused (.unsatisfied i)) := by
  rcases hf.firstViolated hm with ⟨-, ht⟩ | ⟨⟨i, hv⟩, -⟩
  · exact absurd ht hs
  · exact ⟨toString i, b.prove_of_violated hi ho hl hv⟩

/-- A build is generated from the layout of a statement without values: it is the system of the
layout and a key with a point for every public column. -/
theorem generate_ok_iff {f : Committed γ} {random : Stream} {b : Build} :
    generate f random = .ok b ↔ ∃ s, f.layout .setup = .ok s ∧ b.r1cs = s.toR1cs ∧
      (Backend.setup s.toR1cs random).1 = .ok b.key ∧
      b.key.verifying.inputs.length = s.toR1cs.instances := by
  rw [generate, compile, Committed.blank]
  cases hl : f.layout .setup with
  | error e => cases e <;> simp [bind, Except.bind]
  | ok s =>
    simp only [bind, Except.bind, Except.ok.injEq, exists_eq_left']
    cases hk : (Backend.setup s.toR1cs random).1 with
    | error e => simp
    | ok k =>
      simp only [ofParts, Except.ok.injEq]
      split
      · next h =>
        simp only [Except.ok.injEq]
        constructor
        · rintro rfl
          exact ⟨rfl, rfl, h⟩
        · obtain ⟨r, k'⟩ := b
          rintro ⟨rfl, rfl, -⟩
          rfl
      · next h =>
        simp only [reduceCtorEq, false_iff]
        rintro ⟨-, rfl, hn⟩
        exact h hn

end Build

end TreeProver
