import TreeProver.Curve.Compressed
import TreeProver.Proofs.Binary.Readers
import TreeProver.Proofs.Field.Roots
import TreeProver.Proofs.Verification

/-!
# Reading back compressed points

The first coordinate of a point on a curve determines the second up to sign, and the mark determines
the sign. So members of the two groups are read back from their compressed form, and keys from the
compressed forms of their points.
-/

namespace TreeProver

open Reader

/-- The point with a first coordinate that has the right one of the two second coordinates. -/
theorem Point.ofX?_eq {F : Type} [CoordinateField F] [HasRoots F] {b x y : F}
    (h : y * y = x * x * x + b) :
    Point.ofX? b x (CoordinateField.isLarger y) = some (.affine x y) := by
  obtain ⟨s, hs, hsign⟩ := HasRoots.sqrt?_mul_self y
  rw [ofX?, ← h, hs, Option.map_some]
  rcases hsign with rfl | rfl
  · rw [if_pos rfl]
  · by_cases hy : -y = y
    · rw [hy, if_pos rfl]
    · rw [HasRoots.isLarger_neg y hy, if_neg (Bool.not_ne_self _), HasRoots.neg_neg]

/-! ### Coordinates -/

/-- A coordinate leaves the top bits free. -/
theorem Fq.val_lt_unit (x : Fq) : x.val < PointMark.unit := Nat.lt_trans x.isLt (by decide)

/-- A mark is known by its bits. -/
theorem PointMark.ofBits?_bits (mark : PointMark) : ofBits? mark.bits = some mark := by
  cases mark <;> rfl

/-- A coordinate is read back. -/
theorem reads_fq (x : Fq) : Reads readFq (encodeFq x) x := by
  intro rest
  have hx : x.val < 256 ^ 32 := Nat.lt_trans x.val_lt_unit (by decide)
  simp only [readFq, encodeFq, reads_number hx _, bind, Except.bind, Residue.ofNat?_val]

/-- A coordinate with a mark is read back. -/
theorem reads_marked (x : Fq) (mark : PointMark) :
    Reads readMarked (encodeMarked x mark) (x, mark) := by
  intro rest
  have hx := x.val_lt_unit
  have hunit : PointMark.unit * 4 = 256 ^ 32 := by decide
  have hbits : mark.bits ≤ 2 := by cases mark <;> decide
  have hlt : x.val + PointMark.unit * mark.bits < 256 ^ 32 := by
    have hmul : PointMark.unit * mark.bits ≤ PointMark.unit * 2 := Nat.mul_le_mul_left _ hbits
    omega
  have hdiv : (x.val + PointMark.unit * mark.bits) / PointMark.unit = mark.bits := by
    rw [Nat.add_mul_div_left _ _ (by decide), Nat.div_eq_of_lt hx, Nat.zero_add]
  have hmod : (x.val + PointMark.unit * mark.bits) % PointMark.unit = x.val := by
    rw [Nat.add_mul_mod_self_left, Nat.mod_eq_of_lt hx]
  simp only [readMarked, encodeMarked, reads_number hlt _, bind, Except.bind, hdiv, hmod,
    PointMark.ofBits?_bits, Residue.ofNat?_val]

/-! ### Points -/

/-- The mark of the larger or the smaller of two second coordinates. -/
def PointMark.ofLarger (larger : Bool) : PointMark := if larger then .larger else .smaller

/-- The mark of a second coordinate is not that of the identity. -/
theorem PointMark.ofLarger_ne (larger : Bool) : ofLarger larger ≠ .identity := by
  cases larger <;> decide

/-- The mark of a second coordinate says whether it is the larger one. -/
theorem PointMark.ofLarger_larger (larger : Bool) :
    decide (ofLarger larger = .larger) = larger := by
  cases larger <;> rfl

namespace G1

/-- A member of the first group is read back. -/
theorem reads {p : G1} (h : p.isMember = true) : Reads G1.read p.encode p := by
  intro rest
  cases p with
  | identity => simp only [read, encode, reads_marked 0 .identity _, bind, Except.bind, ↓reduceIte]
  | affine x y =>
    have hcurve : y * y = x * x * x + constant := of_decide_eq_true h
    have hmarked := reads_marked x (.ofLarger (Residue.isLarger y)) rest
    have hpoint : Point.ofX? constant x (Residue.isLarger y) = some (.affine x y) :=
      Point.ofX?_eq hcurve
    rw [PointMark.ofLarger] at hmarked
    simp only [read, encode, hmarked, bind, Except.bind]
    rw [← PointMark.ofLarger, if_neg (PointMark.ofLarger_ne _), PointMark.ofLarger_larger, hpoint]

end G1

namespace G2

/-- A point on the curve of the second group is read back. -/
theorem reads_onCurve {p : G2} (h : p.isOnCurve constant = true) :
    Reads readOnCurve p.encode p := by
  intro rest
  cases p with
  | identity =>
    simp only [readOnCurve, encode, List.append_assoc, reads_fq 0 _, reads_marked 0 .identity _,
      bind, Except.bind, ↓reduceIte]
  | affine x y =>
    obtain ⟨c0, c1⟩ := x
    have hcurve : y * y = ⟨c0, c1⟩ * ⟨c0, c1⟩ * ⟨c0, c1⟩ + constant := of_decide_eq_true h
    have hmarked := reads_marked c1 (.ofLarger (Fq2.isLarger y)) rest
    have hpoint : Point.ofX? constant ⟨c0, c1⟩ (Fq2.isLarger y) = some (.affine ⟨c0, c1⟩ y) :=
      Point.ofX?_eq hcurve
    rw [PointMark.ofLarger] at hmarked
    simp only [readOnCurve, encode, List.append_assoc, reads_fq c0 _, hmarked, bind, Except.bind]
    rw [← PointMark.ofLarger, if_neg (PointMark.ofLarger_ne _), PointMark.ofLarger_larger, hpoint]

variable {p : G2}

/-- A member of the second group lies on its curve. -/
theorem isOnCurve_of_isMember (h : p.isMember = true) : p.isOnCurve constant = true := by
  rw [isMember, Bool.and_eq_true] at h
  exact h.1

/-- A member of the second group is read back. -/
theorem reads (h : p.isMember = true) : Reads G2.read p.encode p :=
  reads_checked (reads_onCurve (isOnCurve_of_isMember h)) h

/-- A list of members of the second group is read back. -/
theorem reads_list {ps : List G2} (hl : ps.length < UInt64.size) (h : ∀ p ∈ ps, isMember p = true) :
    Reads readList (encodeList encode ps) ps := by
  refine reads_checked (Reader.reads_list hl fun p hp ↦ ?_) (List.all_eq_true.2 h)
  exact reads_onCurve (isOnCurve_of_isMember (h p hp))

end G2

/-! ### Keys -/

/-- The points of a verifying key are members of their groups, and their number fits eight bytes. -/
structure VerifyingKey.IsStorable (k : VerifyingKey) : Prop where
  members : k.HasMembers
  length : k.inputs.length < UInt64.size

/-- A list of members of the first group is read back. -/
theorem G1.reads_list {ps : List G1} (hl : ps.length < UInt64.size)
    (h : ∀ p ∈ ps, isMember p = true) :
    Reads (Reader.list G1.read) (encodeList encode ps) ps :=
  Reader.reads_list hl fun p hp ↦ reads (h p hp)

/-- A verifying key is read back. -/
theorem VerifyingKey.IsStorable.reads {k : VerifyingKey} (h : k.IsStorable) :
    Reads VerifyingKey.read k.encode k := by
  intro rest
  simp only [VerifyingKey.read, encode, List.append_assoc, G1.reads h.members.alpha _,
    G2.reads h.members.beta _, G2.reads h.members.gamma _, G2.reads h.members.delta _,
    G1.reads_list h.length h.members.inputs _, bind, Except.bind]

/-- The points of a proving key are members of their groups, and their numbers fit eight bytes. -/
structure ProvingKey.IsStorable (k : ProvingKey) : Prop where
  verifying : k.verifying.IsStorable
  beta : k.beta.isMember = true
  delta : k.delta.isMember = true
  lists : ∀ ps ∈ [k.aColumns, k.bColumns, k.quotient, k.witnesses],
    ps.length < UInt64.size ∧ ∀ p ∈ ps, G1.isMember p = true
  bColumns2 : k.bColumns2.length < UInt64.size ∧ ∀ p ∈ k.bColumns2, G2.isMember p = true

/-- A proving key is read back. -/
theorem ProvingKey.IsStorable.reads {k : ProvingKey} (h : k.IsStorable) :
    Reads ProvingKey.read k.encode k := by
  intro rest
  have hlists := h.lists
  simp only [List.forall_mem_cons] at hlists
  obtain ⟨ha, hb, hq, hw, -⟩ := hlists
  simp only [ProvingKey.read, encode, List.append_assoc, h.verifying.reads _, G1.reads h.beta _,
    G1.reads h.delta _, G1.reads_list ha.1 ha.2 _, G1.reads_list hb.1 hb.2 _,
    G2.reads_list h.bColumns2.1 h.bColumns2.2 _, G1.reads_list hq.1 hq.2 _,
    G1.reads_list hw.1 hw.2 _, bind, Except.bind]

end TreeProver
