import TreeProver.Proofs.Groth16.Prove

/-!
# When proving aborts

Proving reads the assignment at the columns that are stored in the rows, reads as many rows of the
third matrix as there should be, and takes the first point of three lists of the key. It aborts
exactly when one of these is not there. The rows of the first two matrices are read in pairs, up to
the shorter one of the two.
-/

namespace TreeProver

/-- The columns of a row are among so many. -/
def Row.Within (size : Nat) (row : Row) : Prop := ∀ e ∈ row, e.2 < size

instance (size : Nat) (row : Row) : Decidable (row.Within size) :=
  inferInstanceAs (Decidable (∀ e ∈ row, e.2 < size))

/-- A row has a value exactly when its columns are those of the assignment. -/
theorem Row.exists_eval?_iff {z : Array Fr} {row : Row} :
    (∃ x, row.eval? z = some x) ↔ row.Within z.size := by
  induction row with
  | nil => exact iff_of_true ⟨0, rfl⟩ nofun
  | cons e row ih =>
    obtain ⟨coefficient, column⟩ := e
    rw [Within, List.forall_mem_cons, ← Within, ← ih]
    constructor
    · rintro ⟨x, hx⟩
      obtain ⟨v, hv, hx⟩ := Option.bind_eq_some_iff.1 hx
      obtain ⟨w, hw, -⟩ := Option.bind_eq_some_iff.1 hx
      exact ⟨(Array.getElem?_eq_some_iff.1 hv).1, w, hw⟩
    · rintro ⟨hc, w, hw⟩
      have hv : z[column]? = some z[column] := Array.getElem?_eq_getElem hc
      exact ⟨coefficient * z[column] + w, by simp [eval?, hv, hw]⟩

/-- There is a domain exactly for as many values as the largest one has points. -/
theorem Domain.ofSize?_eq_none_iff {n : Nat} : ofSize? n = none ↔ 2 ^ maxLevels < n := by
  constructor
  · intro h
    refine Nat.lt_of_not_le fun hn ↦ ?_
    obtain ⟨d, hd⟩ := exists_ofSize hn
    rw [hd] at h
    cases h
  · intro h
    have hlevels : maxLevels < levelsFor n := by
      have hpos : ¬ n ≤ 1 := Nat.not_le.2 (Nat.lt_of_le_of_lt (Nat.one_le_two_pow) h)
      rw [levelsFor, if_neg hpos, Nat.lt_succ_iff, Nat.le_log2 (by omega)]
      omega
    rw [ofSize?]
    exact if_pos hlevels

namespace Groth16

/-- The values of rows are found exactly when the columns of all of them are those of the
assignment. -/
theorem rowValues_ok_iff {z : Array Fr} {rows : List Row} :
    (∃ xs, rowValues z rows = .ok xs) ↔ ∀ row ∈ rows, row.Within z.size := by
  simp only [exists_rowValues_iff, Row.exists_eval?_iff]

/-- How many rows of the first two matrices are read. -/
def pairedRows (m : R1cs) : Nat := min m.constraints (min m.a.length m.b.length)

/-- Everything that proving reads is there: the columns in an assignment of the given size, the rows
of the third matrix, and the first points of the key, where those of the second list are read only
with the blinding scalar `r`. -/
structure InShape (k : ProvingKey) (m : R1cs) (r : Fr) (size : Nat) : Prop where
  a : ∀ row ∈ m.a.take (pairedRows m), row.Within size
  b : ∀ row ∈ m.b.take (pairedRows m), row.Within size
  c : ∀ row ∈ m.c.take m.constraints, row.Within size
  rows : m.constraints ≤ m.c.length
  aColumns : k.aColumns ≠ []
  bColumns : r ≠ 0 → k.bColumns ≠ []
  bColumns2 : k.bColumns2 ≠ []

instance (k : ProvingKey) (m : R1cs) (r : Fr) (size : Nat) : Decidable (InShape k m r size) :=
  decidable_of_iff
    (((∀ row ∈ m.a.take (pairedRows m), row.Within size) ∧
      (∀ row ∈ m.b.take (pairedRows m), row.Within size) ∧
      ∀ row ∈ m.c.take m.constraints, row.Within size) ∧ m.constraints ≤ m.c.length ∧
      k.aColumns ≠ [] ∧ (r ≠ 0 → k.bColumns ≠ []) ∧ k.bColumns2 ≠ [])
    ⟨fun ⟨⟨a, b, c⟩, rows, a₁, b₁, b₂⟩ ↦ ⟨a, b, c, rows, a₁, b₁, b₂⟩,
      fun ⟨a, b, c, rows, a₁, b₁, b₂⟩ ↦ ⟨⟨a, b, c⟩, rows, a₁, b₁, b₂⟩⟩

/-- The quotient is found exactly when all rows that are read are there with their columns. -/
theorem quotient_ok_iff {m : R1cs} {z : Array Fr} (domain : Domain) (hz : m.instances ≤ z.size) :
    (∃ q, quotient m domain z = .ok q) ↔
      (∀ row ∈ m.a.take (pairedRows m), row.Within z.size) ∧
      (∀ row ∈ m.b.take (pairedRows m), row.Within z.size) ∧ m.constraints ≤ m.c.length ∧
      ∀ row ∈ m.c.take m.constraints, row.Within z.size := by
  rw [← rowValues_ok_iff, ← rowValues_ok_iff, ← rowValues_ok_iff, pairedRows]
  constructor
  · rintro ⟨q, hq⟩
    obtain ⟨a, ha, hq⟩ := Except.bind_eq_ok_iff.1 hq
    obtain ⟨b, hb, hq⟩ := Except.bind_eq_ok_iff.1 hq
    split at hq
    · cases hq
    · next hle =>
      obtain ⟨c, hc, -⟩ := Except.bind_eq_ok_iff.1 hq
      rw [not_or, Nat.not_lt] at hle
      exact ⟨⟨a, ha⟩, ⟨b, hb⟩, hle.1, ⟨c, hc⟩⟩
  · rintro ⟨⟨a, ha⟩, ⟨b, hb⟩, hrows, ⟨c, hc⟩⟩
    have hle : ¬ (m.c.length < m.constraints ∨ z.size < m.instances) := by omega
    simp only [quotient, ha, hb, hc, hle, bind, Except.bind, ↓reduceIte]
    exact ⟨_, rfl⟩

/-- The second point in the first group is found exactly when its list has a point, unless there is
no blinding. -/
theorem secondInFirst_ok_iff {k : ProvingKey} {r s : Fr} {z : List Fr} :
    (∃ p, secondInFirst k r s z = .ok p) ↔ (r ≠ 0 → k.bColumns ≠ []) := by
  rw [secondInFirst]
  by_cases hr : r = 0
  · rw [if_pos hr]
    exact iff_of_true ⟨_, rfl⟩ fun h ↦ absurd hr h
  · rw [if_neg hr]
    cases k.bColumns with
    | nil =>
      refine iff_of_false ?_ fun h ↦ h hr rfl
      rintro ⟨p, hp⟩
      cases hp
    | cons b0 bs => exact iff_of_true ⟨_, rfl⟩ fun _ ↦ List.cons_ne_nil _ _

/-- Points are combined exactly when the lists of the key that are read have a first one. -/
theorem combine_ok_iff {k : ProvingKey} {r s : Fr} {h inputs witnesses : List Fr} :
    (∃ p, combine k r s h inputs witnesses = .ok p) ↔
      k.aColumns ≠ [] ∧ (r ≠ 0 → k.bColumns ≠ []) ∧ k.bColumns2 ≠ [] := by
  rw [← secondInFirst_ok_iff (s := s) (z := inputs ++ witnesses), combine]
  cases k.aColumns with
  | nil =>
    refine iff_of_false ?_ fun h ↦ h.1 rfl
    rintro ⟨p, hp⟩
    cases hp
  | cons a0 as =>
    cases k.bColumns2 with
    | nil =>
      refine iff_of_false ?_ fun h ↦ h.2.2 rfl
      rintro ⟨p, hp⟩
      cases hp
    | cons b0 bs =>
      cases secondInFirst k r s (inputs ++ witnesses) with
      | error e =>
        refine iff_of_false ?_ ?_
        · rintro ⟨p, hp⟩
          cases hp
        · rintro ⟨-, ⟨p, hp⟩, -⟩
          cases hp
      | ok p => exact iff_of_true ⟨_, rfl⟩ ⟨List.cons_ne_nil _ _, ⟨p, rfl⟩, List.cons_ne_nil _ _⟩

/-- What proving computes once there is a domain, which may abort. -/
def compute (k : ProvingKey) (m : R1cs) (r s : Fr) (z : Array Fr) (d : Domain) :
    Except Abort Points := do
  let h ← quotient m d z
  combine k r s h ((z.toList.take m.instances).drop 1) (z.toList.drop m.instances)

/-- With a domain there is a proof of what is computed, and an abort when that aborts. -/
theorem prove_eq_compute {k : ProvingKey} {m : R1cs} {r s : Fr} {z : Array Fr} {d : Domain}
    (hd : Domain.ofSize? (m.constraints + m.instances) = some d) :
    prove k m r s z = (compute k m r s z d).mapError Failure.abort := by
  simp only [prove, hd, compute]
  cases quotient m d z with
  | error e => rfl
  | ok q =>
    dsimp only [bind, Except.bind]
    cases combine k r s q ((z.toList.take m.instances).drop 1) (z.toList.drop m.instances) <;> rfl

/-- Points are computed exactly when everything that proving reads is there. -/
theorem compute_ok_iff {k : ProvingKey} {m : R1cs} {r s : Fr} {z : Array Fr} {d : Domain}
    (hz : m.instances ≤ z.size) :
    (∃ p, compute k m r s z d = .ok p) ↔ InShape k m r z.size := by
  constructor
  · rintro ⟨p, hp⟩
    obtain ⟨q, hq, hp⟩ := Except.bind_eq_ok_iff.1 hp
    obtain ⟨ha, hb, hrows, hc⟩ := (quotient_ok_iff d hz).1 ⟨q, hq⟩
    obtain ⟨haColumns, hbColumns, hbColumns2⟩ := combine_ok_iff.1 ⟨p, hp⟩
    exact ⟨ha, hb, hc, hrows, haColumns, hbColumns, hbColumns2⟩
  · intro h
    obtain ⟨q, hq⟩ := (quotient_ok_iff d hz).2 ⟨h.a, h.b, h.rows, h.c⟩
    obtain ⟨p, hp⟩ := combine_ok_iff.2 ⟨h.aColumns, h.bColumns, h.bColumns2⟩
    exact ⟨p, Except.bind_eq_ok_iff.2 ⟨q, hq, hp⟩⟩

/-- Proving aborts exactly when there is a domain and something that it reads is not there. -/
theorem prove_aborts_iff {k : ProvingKey} {m : R1cs} {r s : Fr} {z : Array Fr}
    (hz : m.instances ≤ z.size) :
    (∃ e, prove k m r s z = .error (.abort e)) ↔
      m.constraints + m.instances ≤ 2 ^ Domain.maxLevels ∧ ¬ InShape k m r z.size := by
  cases hd : Domain.ofSize? (m.constraints + m.instances) with
  | none =>
    have hlarge := Domain.ofSize?_eq_none_iff.1 hd
    rw [prove, hd]
    refine iff_of_false ?_ fun h ↦ Nat.not_le.2 hlarge h.1
    rintro ⟨e, he⟩
    cases he
  | some d =>
    have hsmall : m.constraints + m.instances ≤ 2 ^ Domain.maxLevels := by
      refine Nat.le_of_not_lt fun hlarge ↦ ?_
      rw [Domain.ofSize?_eq_none_iff.2 hlarge] at hd
      cases hd
    rw [← compute_ok_iff (s := s) (d := d) hz, prove_eq_compute hd]
    cases compute k m r s z d with
    | error e =>
      refine iff_of_true ⟨e, rfl⟩ ⟨hsmall, ?_⟩
      rintro ⟨p, hp⟩
      cases hp
    | ok p =>
      refine iff_of_false ?_ fun h ↦ h.2 ⟨p, rfl⟩
      rintro ⟨e, he⟩
      cases he

end Groth16

end TreeProver
