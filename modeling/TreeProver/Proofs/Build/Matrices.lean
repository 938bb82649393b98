import TreeProver.Circuits.Fixed
import TreeProver.Proofs.Build
import TreeProver.Proofs.Circuits.PublicInputs
import TreeProver.Proofs.Groth16.Prove
import TreeProver.Proofs.Lowering.Rows

/-!
# Which matrices an assignment satisfies

Before it proves, a build checks the values of a statement against the gates that the statement
itself lays out, and compares three counts with those of the stored system. The assignment of a
proof therefore satisfies the system of the statement. The entries of the stored matrices are not
looked at: where they are not those of the statement, the assignment need not satisfy them.
-/

namespace TreeProver

open Circuit Layout Synth

namespace Build

variable {γ : Type} [Computation γ] [Additive γ]

/-- The assignment of a statement satisfies the system of the statement, which has the counts of the
stored system. -/
theorem assignment_isSatisfiedBy {b : Build} {f : Committed γ} {z : Array Fr}
    (h : b.assignment f = .ok z) : ∃ s, f.layout .proving = .ok s ∧ z = s.assignment ∧
      s.toR1cs.isSatisfiedBy z = true ∧ b.r1cs.instances = s.toR1cs.instances ∧
      b.r1cs.witnesses = s.toR1cs.witnesses ∧ b.r1cs.constraints = s.toR1cs.constraints := by
  obtain ⟨s, hl, hv, hc, rfl⟩ := assignment_ok_iff.1 h
  obtain ⟨hf, hm⟩ := Committed.filled_of_layout hl
  obtain ⟨hi, hw, hr⟩ := R1cs.checkShape_ok_iff.1 hc
  rcases hf.firstViolated hm with ⟨-, hs⟩ | ⟨⟨i, hv'⟩, -⟩
  · exact ⟨s, hl, rfl, hf.toR1cs_isSatisfiedBy hs, hi, hw, by simp [hr, toR1cs, R1cs.ofRows]⟩
  · rw [hv] at hv'
    simp at hv'

/-- Which matrices the assignment of a proof satisfies. There is a proof only for an assignment that
satisfies the system that the statement is laid out as, and only when that system has the counts of
the stored one. Where the stored matrices are those of the statement, the assignment satisfies
them. -/
theorem prove_isSatisfiedBy [Backend] {b : Build} {f : Committed γ} {p : Proof}
    (h : b.prove f = .ok p) :
    ∃ s z points, f.layout .proving = .ok s ∧ b.assignment f = .ok z ∧ b.points z = .ok points ∧
      s.toR1cs.isSatisfiedBy z = true ∧ b.r1cs.instances = s.toR1cs.instances ∧
      b.r1cs.witnesses = s.toR1cs.witnesses ∧ b.r1cs.constraints = s.toR1cs.constraints ∧
      (b.r1cs.a = s.toR1cs.a → b.r1cs.b = s.toR1cs.b → b.r1cs.c = s.toR1cs.c →
        b.r1cs.isSatisfiedBy z = true) := by
  obtain ⟨_, _, z, points, -, -, hz, hp, -⟩ := prove_ok_iff.1 h
  obtain ⟨s, hl, -, hs, hi, hw, hn⟩ := assignment_isSatisfiedBy hz
  refine ⟨s, z, points, hl, hz, hp, hs, hi, hw, hn, fun ha hb hc ↦ ?_⟩
  rw [R1cs.isSatisfiedBy, ha, hb, hc]
  exact hs

end Build

namespace Circuit.Layout

variable {s₀ s : Layout} {l : Lowering}

/-- The rows of the first layout have values in the second. -/
def Valued (s₀ s : Layout) : Prop :=
  ∀ r ∈ s₀.lower.rows.toList,
    (s.eval? r.1).isSome ∧ (s.eval? r.2.1).isSome ∧ (s.eval? r.2.2).isSome

/-- A row of the first layout does not hold in the second. -/
def Violates (s₀ s : Layout) : Prop :=
  ∃ r ∈ s₀.lower.rows.toList,
    ((s.eval? r.1).bind fun x ↦ (s.eval? r.2.1).map fun y ↦ x * y) ≠ s.eval? r.2.2

instance (s₀ s : Layout) : Decidable (Valued s₀ s) := inferInstanceAs (Decidable (∀ _ ∈ _, _))

instance (s₀ s : Layout) : Decidable (Violates s₀ s) := inferInstanceAs (Decidable (∃ _ ∈ _, _))

/-- The three forms of a row as rows of a system with the given public columns. -/
private theorem rows_values (hi : s.inputValues.size = s.inputs) (hn : s₀.inputs = s.inputs)
    {f : Form} {x : Fr} (hf : s.eval? f = some x) :
    Row.eval? (s.columns l) (f.toRow s₀.instances) = some x := by
  rw [instances, hn]
  exact Form.eval?_toRow hi ((s.keeps_extend l).eval? hf)

/-- The system of a layout whose rows have values in another layout with as many public inputs is in
range of the assignment of that layout. -/
theorem Valued.inRange (h : s₀.Valued s) (hi : s.inputValues.size = s.inputs)
    (hn : s₀.inputs = s.inputs) : Groth16.InRange s₀.toR1cs (s.columns l) := by
  have hrow {f : Form} (hf : (s.eval? f).isSome) :
      ∃ x, Row.eval? (s.columns l) (f.toRow s₀.instances) = some x := by
    obtain ⟨x, hx⟩ := Option.isSome_iff_exists.1 hf
    exact ⟨x, rows_values hi hn hx⟩
  intro row hr
  simp only [toR1cs, R1cs.ofRows, List.map_map, List.append_assoc, List.mem_append, List.mem_map,
    Function.comp_apply] at hr
  rcases hr with ⟨r, hr, rfl⟩ | ⟨r, hr, rfl⟩ | ⟨r, hr, rfl⟩
  · exact hrow (h r hr).1
  · exact hrow (h r hr).2.1
  · exact hrow (h r hr).2.2

/-- The assignment of a layout does not satisfy a system one of whose rows it violates. -/
theorem Violates.isSatisfiedBy_eq (h : s₀.Violates s) (hv : s₀.Valued s)
    (hi : s.inputValues.size = s.inputs) (hn : s₀.inputs = s.inputs) :
    s₀.toR1cs.isSatisfiedBy (s.columns l) = false := by
  obtain ⟨r, hr, hne⟩ := h
  obtain ⟨hx, hy, hz⟩ := hv r hr
  obtain ⟨x, hx⟩ := Option.isSome_iff_exists.1 hx
  obtain ⟨y, hy⟩ := Option.isSome_iff_exists.1 hy
  obtain ⟨z, hz⟩ := Option.isSome_iff_exists.1 hz
  rw [toR1cs, isSatisfiedBy_ofRows, List.all_map, List.all_eq_false]
  refine ⟨r, hr, ?_⟩
  rw [hx, hy, hz] at hne
  simpa [R1cs.rowHolds, rows_values hi hn hx, rows_values hi hn hy, rows_values hi hn hz] using hne

end Circuit.Layout

namespace FixedCircuit

/-- The circuit for no bytes at all with one private byte, which has to be the given one. -/
def ofSecret (x : UInt8) : FixedCircuit := .new [] [] (some [x]) 1 (some [x])

/-- The statement of the circuit for a private byte, with the commitments to no bytes. -/
def statement (x : UInt8) : Committed FixedCircuit :=
  ⟨some (commitment []), some (commitment []), { ofSecret x with assigned := ⟨0, some [], []⟩ }⟩

/-- The circuit for a private byte becomes its statement when it takes the empty input. -/
theorem assign_ofSecret (x : UInt8) :
    (Committed.ofComputation (ofSecret x)).assign [] = .ok (statement x) :=
  have hc : Computes { ofSecret x with assigned := ⟨0, some [], []⟩ } ([x] = [x]) [] [] :=
    computes rfl rfl rfl
  hc.assign_eq rfl

end FixedCircuit

/-- The shape of the layouts of circuits with one private byte. -/
private def HasShape (s₀ s : Layout) : Prop :=
  s₀.inputs = 2 ∧ s₀.lower.witnesses = s.lower.witnesses ∧ s₀.lower.rows.size = 11 ∧ s₀.Valued s

private instance (s₀ s : Layout) : Decidable (HasShape s₀ s) := inferInstanceAs (Decidable (_ ∧ _))

/-- The layout of the circuit for one private byte and that of the statement for another one have
the same shape, but the second violates a row of the first. -/
private theorem exists_siblings :
    ∃ s₀ s, (Committed.ofComputation (FixedCircuit.ofSecret 5)).blank = .ok s₀ ∧
      (FixedCircuit.statement 6).layout .proving = .ok s ∧ s.firstViolated = .ok none ∧
      s.inputValues.size = 2 ∧ HasShape s s ∧ HasShape s₀ s ∧ s₀.Violates s := by
  have h : ((Committed.ofComputation (FixedCircuit.ofSecret 5)).blank.toOption.any fun s₀ ↦
      ((FixedCircuit.statement 6).layout .proving).toOption.any fun s ↦
        decide (s.firstViolated = .ok none ∧
          s.inputValues.size = 2 ∧ HasShape s s ∧ HasShape s₀ s ∧ s₀.Violates s)) = true := by
    decide +kernel
  obtain ⟨s₀, hs₀, h⟩ := (Option.any_eq_true _ _).1 h
  obtain ⟨s, hs, h⟩ := (Option.any_eq_true _ _).1 h
  exact ⟨s₀, s, Except.eq_ok_of_toOption hs₀, Except.eq_ok_of_toOption hs, of_decide_eq_true h⟩

/-- A key with a point for every public column. -/
private def idleKey : ProvingKey :=
  ⟨⟨.identity, .identity, .identity, .identity, [.identity, .identity, .identity]⟩, .identity,
    .identity, [.identity], [.identity], [.identity], [], []⟩

/-- A build with the system of a layout of the shape of a statement proves the statement. -/
private theorem prove_of_hasShape {s₀ s : Layout} (h : HasShape s₀ s) (hs : HasShape s s)
    (hl : (FixedCircuit.statement 6).layout .proving = .ok s) (hv : s.firstViolated = .ok none)
    (hi : s.inputValues.size = 2) : Build.ofParts s₀.toR1cs idleKey = .ok ⟨s₀.toR1cs, idleKey⟩ ∧
      (⟨s₀.toR1cs, idleKey⟩ : Build).assignment (FixedCircuit.statement 6) = .ok s.assignment ∧
      ∃ p, (⟨s₀.toR1cs, idleKey⟩ : Build).prove (FixedCircuit.statement 6) = .ok p := by
  obtain ⟨hi₀, hw, hr, hvalued⟩ := h
  have hin : s₀.toR1cs.instances = 3 := by simp [toR1cs, R1cs.ofRows, instances, hi₀]
  have hco : s₀.toR1cs.constraints = 11 := by simp [toR1cs, R1cs.ofRows, hr]
  have hz : (⟨s₀.toR1cs, idleKey⟩ : Build).assignment (FixedCircuit.statement 6)
      = .ok s.assignment := by
    refine Build.assignment_ok_iff.2 ⟨s, hl, hv, R1cs.checkShape_ok_iff.2 ⟨?_, hw, ?_⟩, rfl⟩
    · rw [hin, instances, hs.1]
    · rw [hco, hs.2.2.1]
  obtain ⟨points, hp⟩ := Groth16.prove_ok (k := idleKey) (m := s₀.toR1cs) (z := s.assignment)
    (Build.blinding s.assignment).1 (Build.blinding s.assignment).2
    (d := ⟨4, Residue.pow Domain.scalarGenerator ((scalarModulus - 1) / 2 ^ (4 : Nat))⟩)
    (by rw [hco, hin]; rfl) (hvalued.inRange (hi.trans hs.1.symm) (hi₀.trans hs.1.symm))
    (by simp [toR1cs, R1cs.ofRows])
    (by rw [hin]; simp [assignment, columns, hi]; omega) ⟨by decide, by decide, by decide⟩
  have hprove : (⟨s₀.toR1cs, idleKey⟩ : Build).prove (FixedCircuit.statement 6)
      = .ok (Proof.ofPoints points (commitment []) (commitment [])) :=
    Build.prove_ok_iff.2 ⟨_, _, _, points, rfl, rfl, hz, Build.points_ok_iff.2 hp, rfl⟩
  refine ⟨?_, hz, _, hprove⟩
  rw [Build.ofParts, hin]
  rfl

/-- There is a proof by a build with the system of its statement, whose assignment satisfies the
stored matrices. -/
theorem prove_isSatisfiedBy_secret : ∃ (b : Build) (p : Proof),
    b.prove (FixedCircuit.statement 6) = .ok p ∧
      ∃ z, b.assignment (FixedCircuit.statement 6) = .ok z ∧ b.r1cs.isSatisfiedBy z = true := by
  obtain ⟨-, s, -, hl, hv, hi, hs, -⟩ := exists_siblings
  obtain ⟨-, -, p, hp⟩ := prove_of_hasShape hs hs hl hv hi
  obtain ⟨s', z, -, hl', hz, -, -, -, -, -, hb⟩ := Build.prove_isSatisfiedBy hp
  obtain rfl : s = s' := Except.ok.inj (hl.symm.trans hl')
  exact ⟨_, p, hp, z, hz, hb rfl rfl rfl⟩

/-- The build for one private byte proves the statement of the circuit for another one, whose
assignment does not satisfy the stored system. -/
theorem prove_violates_stored_system :
    ∃ (f : Committed FixedCircuit) (m : R1cs) (k : ProvingKey) (b : Build) (p : Proof)
      (z : Array Fr), (Committed.ofComputation (FixedCircuit.ofSecret 6)).assign [] = .ok f ∧
      Build.compile (Committed.ofComputation (FixedCircuit.ofSecret 5)) = .ok m ∧
      Build.ofParts m k = .ok b ∧ b.prove f = .ok p ∧ b.assignment f = .ok z ∧
      b.r1cs.isSatisfiedBy z = false := by
  obtain ⟨s₀, s, hs₀, hl, hv, hi, hs, h₀, hviolates⟩ := exists_siblings
  obtain ⟨hb, hz, p, hp⟩ := prove_of_hasShape h₀ hs hl hv hi
  have hc : Build.compile (Committed.ofComputation (FixedCircuit.ofSecret 5)) = .ok s₀.toR1cs := by
    rw [Build.compile, hs₀]
    rfl
  exact ⟨_, _, _, _, p, _, FixedCircuit.assign_ofSecret 6, hc, hb, hp, hz,
    hviolates.isSatisfiedBy_eq h₀.2.2.2 (hi.trans hs.1.symm) (h₀.1.trans hs.1.symm)⟩

end TreeProver
