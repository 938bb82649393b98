import TreeProver.Proofs.Lowering.Sha256

/-!
# The rank-one system of a layout

A form is written as a row by sorting its entries, adding up those of equal columns and leaving out
zeros, which puts the columns in ascending order and does not change the value. An assignment lists
the values of all columns of a layout in the order of the system, so the assignment of a satisfied
layout satisfies the system of the layout.
-/

namespace TreeProver

open scoped Fin.CommRing

open Circuit Layout

/-- The matrices have as many rows as there are constraints, and there is a column for the one. -/
structure R1cs.WellFormed (r : R1cs) : Prop where
  a : r.a.length = r.constraints
  b : r.b.length = r.constraints
  c : r.c.length = r.constraints
  instances : 0 < r.instances

/-- The columns of a row stand in ascending order, each at most once. -/
def Row.Ascending (r : Row) : Prop := r.Pairwise (·.2 < ·.2)

namespace Circuit.Form

/-- Adding up entries keeps columns in their order and takes in no new ones. -/
theorem sublist_collect (es : List (Fr × Nat)) :
    ((collect es).map (·.2)).Sublist (es.map (·.2)) := by
  induction es with
  | nil => exact .slnil
  | cons e es ih =>
    rw [collect]
    split
    · split
      · exact List.nil_sublist _
      · exact (List.nil_sublist _).cons_cons e.2
    · next e' rest he =>
      rw [he, List.map_cons] at ih
      have hrest := (List.sublist_cons_self e'.2 (rest.map (·.2))).trans ih
      split
      · next hcolumn =>
        split
        · exact hrest.cons e.2
        · exact hrest.cons_cons e.2
      · split
        · exact ih.cons e.2
        · exact ih.cons_cons e.2

/-- Entries that stand in order are added up to a row that is ascending. -/
theorem ascending_collect {es : List (Fr × Nat)} (h : es.Pairwise (·.2 ≤ ·.2)) :
    Row.Ascending (collect es) := by
  induction es with
  | nil => exact .nil
  | cons e es ih =>
    obtain ⟨hfirst, hothers⟩ := List.pairwise_cons.1 h
    have hsub := sublist_collect es
    have ih := ih hothers
    rw [collect]
    split
    · split
      · exact .nil
      · exact List.pairwise_singleton _ _
    · next e' rest he =>
      rw [he] at ih hsub
      obtain ⟨hbehind, hrest⟩ := List.pairwise_cons.1 ih
      split
      · next hcolumn =>
        split
        · exact hrest
        · exact List.pairwise_cons.2 ⟨fun x hx ↦ hcolumn ▸ hbehind x hx, hrest⟩
      · next hcolumn =>
        split
        · exact ih
        · -- The next column is one of those that the first entry does not stand behind.
          obtain ⟨x, hx, hxe⟩ := List.mem_map.1 (hsub.subset (.head _))
          have hlt : e.2 < e'.2 := Nat.lt_of_le_of_ne ((hfirst x hx).trans_eq hxe) hcolumn
          refine List.pairwise_cons.2 ⟨List.forall_mem_cons.2 ⟨hlt, fun y hy ↦ ?_⟩, ih⟩
          exact Nat.lt_trans hlt (hbehind y hy)

/-- A form is written as an ascending row. -/
theorem ascending_toRow (instances : Nat) (f : Form) : (f.toRow instances).Ascending := by
  refine ascending_collect ((List.pairwise_mergeSort ?_ ?_ _).imp of_decide_eq_true)
  · simpa using fun _ _ _ ↦ Nat.le_trans
  · simpa using Nat.le_total

end Circuit.Form

namespace Row

variable {z : Array Fr}

/-- An entry in front of a row adds its value. -/
theorem eval?_cons_iff {k x : Fr} {c : Nat} {r : Row} :
    eval? z ((k, c) :: r) = some x ↔
      ∃ v w, z[c]? = some v ∧ eval? z r = some w ∧ k * v + w = x := by
  simp [eval?, Option.bind_eq_some_iff]

/-- The order of the entries does not matter. -/
theorem eval?_perm {r r' : Row} (h : r.Perm r') {x : Fr} (hx : eval? z r = some x) :
    eval? z r' = some x := by
  induction h generalizing x with
  | nil => exact hx
  | cons e _ ih =>
    obtain ⟨v, w, hv, hw, rfl⟩ := eval?_cons_iff.1 hx
    exact eval?_cons_iff.2 ⟨v, w, hv, ih hw, rfl⟩
  | swap e e' r =>
    obtain ⟨v, _, hv, hr, rfl⟩ := eval?_cons_iff.1 hx
    obtain ⟨v', w, hv', hw, rfl⟩ := eval?_cons_iff.1 hr
    exact eval?_cons_iff.2 ⟨v', _, hv', eval?_cons_iff.2 ⟨v, w, hv, hw, rfl⟩, by ring⟩
  | trans _ _ ih ih' => exact ih' (ih hx)

/-- Adding up the entries of equal columns and leaving out zeros does not change the value. -/
theorem eval?_collect {r : Row} {x : Fr} (hx : eval? z r = some x) :
    eval? z (Form.collect r) = some x := by
  induction r generalizing x with
  | nil => exact hx
  | cons e es ih =>
    obtain ⟨k, c⟩ := e
    obtain ⟨v, w, hv, hw, rfl⟩ := eval?_cons_iff.1 hx
    have hc := ih hw
    have hzero (hk : k = 0) : k * v + w = w := by rw [hk, zero_mul, zero_add]
    rw [Form.collect]
    split
    · next he =>
      rw [he] at hc
      split
      · next hk => rwa [hzero hk]
      · exact eval?_cons_iff.2 ⟨v, w, hv, hc, rfl⟩
    · next e' rest he =>
      obtain ⟨k', c'⟩ := e'
      rw [he] at hc
      obtain ⟨v', w', hv', hw', rfl⟩ := eval?_cons_iff.1 hc
      split
      · next hcc =>
        -- Both entries are of the same column.
        obtain rfl : c = c' := hcc
        obtain rfl : v = v' := Option.some.inj (hv.symm.trans hv')
        have hadd : k * v + (k' * v + w') = (k + k') * v + w' := by ring
        rw [hadd]
        split
        · next hk => rwa [show k + k' = 0 from hk, zero_mul, zero_add]
        · exact eval?_cons_iff.2 ⟨v, w', hv, hw', rfl⟩
      · split
        · next hk => rw [hzero hk]; exact hc
        · exact eval?_cons_iff.2 ⟨v, _, hv, hc, rfl⟩

end Row

namespace Circuit

variable {s : Layout} {l : Lowering}

/-- The values of all columns of a layout and a lowering are listed: one, the public inputs and the
witnesses. -/
theorem Layout.columns_getElem? (hi : s.inputValues.size = s.inputs) {c : Column} {x : Fr}
    (hx : (s.extend l).value? c = some x) :
    (s.columns l)[c.position s.instances]? = some x := by
  have hz : s.columns l = (#[1] ++ s.inputValues) ++ (s.witnessValues ++ l.values) :=
    Array.append_assoc
  have hp : (#[1] ++ s.inputValues).size = s.instances := by
    rw [Array.size_append, hi, instances, Nat.add_comm]
    rfl
  have hpublic {i : Nat} {y : Fr} (hy : (#[1] ++ s.inputValues)[i]? = some y) :
      (s.columns l)[i]? = some y := by
    obtain ⟨hlt, -⟩ := Array.getElem?_eq_some_iff.1 hy
    rw [hz, Array.getElem?_append_left hlt, hy]
  cases c with
  | one =>
    obtain rfl : 1 = x := Option.some.inj hx
    exact hpublic (i := 0) (by simp)
  | input i =>
    refine hpublic (i := i + 1) ?_
    rw [Array.getElem?_append_right (by simp)]
    exact hx
  | witness i =>
    rw [hz, Column.position, Array.getElem?_append_right (by omega), hp, Nat.add_sub_cancel_left]
    exact hx

/-- A form has the value of the row that it is written as. -/
theorem Form.eval?_toRow (hi : s.inputValues.size = s.inputs) {f : Form} {x : Fr}
    (hx : (s.extend l).eval? f = some x) :
    Row.eval? (s.columns l) (f.toRow s.instances) = some x := by
  have hm : Row.eval? (s.columns l) (f.map fun t ↦ (t.1, t.2.position s.instances)) = some x := by
    induction f generalizing x with
    | nil => exact hx
    | cons e f ih =>
      obtain ⟨k, c⟩ := e
      simp only [Layout.eval?, Option.bind_eq_bind, Option.bind_eq_some_iff,
        Option.some.injEq] at hx
      obtain ⟨v, hv, w, hw, rfl⟩ := hx
      exact Row.eval?_cons_iff.2 ⟨v, w, columns_getElem? hi hv, ih hw, rfl⟩
  exact Row.eval?_collect (Row.eval?_perm (List.mergeSort_perm _ _).symm hm)

namespace Layout

/-- The system of a layout is well formed. -/
theorem toR1cs_wellFormed (s : Layout) : s.toR1cs.WellFormed := by
  constructor <;> simp [toR1cs, R1cs.ofRows, instances]

/-- A system of rows is satisfied when every row holds. -/
theorem isSatisfiedBy_ofRows {z : Array Fr} {instances witnesses : Nat}
    {rows : List (Row × Row × Row)} :
    (R1cs.ofRows instances witnesses rows).isSatisfiedBy z
      = rows.all fun r ↦ R1cs.rowHolds z r.1 r.2.1 r.2.2 := by
  simp only [R1cs.isSatisfiedBy, R1cs.ofRows]
  induction rows with
  | nil => rfl
  | cons r rows ih => simp [ih]

/-- The assignment of a satisfied layout satisfies the system of the layout. -/
theorem Filled.toR1cs_isSatisfiedBy (h : s.Filled) (hs : s.Satisfied) :
    s.toR1cs.isSatisfiedBy s.assignment = true := by
  rw [toR1cs, isSatisfiedBy_ofRows, List.all_map, List.all_eq_true]
  intro r hr
  obtain ⟨x, y, p, hx, hy, hp, he⟩ := (h.lower_sound hs).rows r (by simpa using hr)
  simp [R1cs.rowHolds, assignment, Form.eval?_toRow h.inputs hx, Form.eval?_toRow h.inputs hy,
    Form.eval?_toRow h.inputs hp, he]

/-- The assignment of a layout whose gates hold has a value for every column of the system. -/
theorem Filled.size_assignment (h : s.Filled) (hs : s.Satisfied) :
    s.assignment.size = s.toR1cs.instances + s.toR1cs.witnesses := by
  have hw := (h.lower_sound hs).witnesses
  simp [assignment, columns, toR1cs, R1cs.ofRows, instances, h.inputs, hw]
  omega

/-- The public part of an assignment is the one and the values of the public inputs. -/
theorem Filled.take_assignment (h : s.Filled) :
    s.assignment.toList.take s.toR1cs.instances = 1 :: s.inputValues.toList := by
  have hz : s.assignment.toList
      = (1 :: s.inputValues.toList) ++ (s.witnessValues.toList ++ s.lower.values.toList) := by
    simp [assignment, columns]
  have hl : s.toR1cs.instances = (1 :: s.inputValues.toList).length := by
    simp [toR1cs, R1cs.ofRows, instances, h.inputs]
  rw [hz, hl, List.take_left]

end Layout

end Circuit

end TreeProver
