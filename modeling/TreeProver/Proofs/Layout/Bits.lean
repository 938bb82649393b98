import TreeProver.Proofs.Layout.Growth

/-!
# Laying out bits

Allocating, demanding and selecting bits with values succeeds, and what comes out stands for the
value that it should. A demand on a bit is made only when the bit is a wire; between constants
nothing is left to demand.
-/

namespace TreeProver.Circuit

open scoped Fin.CommRing

open Layout Synth

namespace Form

/-- A concatenation is constant when both parts are. -/
theorem isConstant_append (f g : Form) :
    isConstant (f ++ g) = (f.isConstant && g.isConstant) := List.all_append

/-- A multiple of a form is constant when the form is. -/
theorem isConstant_scale (k : Fr) (f : Form) : (f.scale k).isConstant = f.isConstant := by
  simp [isConstant, scale, Function.comp_def]

end Form

namespace Bit

variable {s : Layout}

/-- The bit is the value of a column or its opposite, and not of the constant column. -/
def IsWire : Bit → Prop
  | .constant _ => False
  | .wire c _ => c ≠ .one

/-- A wire is not constant. -/
theorem IsWire.isConstant_eq {b : Bit} (h : b.IsWire) : b.isConstant = false := by
  cases b with
  | constant _ => exact h.elim
  | wire _ _ => rfl

/-- The form of a wire depends on a value. -/
theorem IsWire.form_isConstant {b : Bit} (h : b.IsWire) : b.form.isConstant = false := by
  cases b with
  | constant _ => exact h.elim
  | wire c negated =>
    have hc : c ≠ .one := h
    cases negated <;>
      simp [form, Form.sub, Form.constant, Form.column, Form.scale, Form.isConstant, hc]

/-- A sum is constant when all its bits are. -/
theorem isConstant_sumFrom (weight : Fr) (bs : List Bit) :
    (sumFrom weight bs).isConstant = bs.all fun b ↦ b.form.isConstant := by
  induction bs generalizing weight with
  | nil => rfl
  | cons b bs ih =>
    rw [sumFrom, Form.isConstant_append, Form.isConstant_scale, ih, List.all_cons]

/-- The boolean demand on a column with a truth value is settled and holds. -/
private theorem boolean_lays (h : s.Filled) {c : Column} {v : Bool}
    (hc : s.value? c = some (scalarOfBool v)) : ∃ t, Lays (constrain (boolean c)) s True () t := by
  have hb : s.eval? (Form.column c) = some (scalarOfBool v) := (eval?_column c).trans hc
  have hz : s.eval? [] = some 0 := rfl
  have hv : (1 - scalarOfBool v) * scalarOfBool v = 0 := by cases v <;> decide
  obtain ⟨t, ht⟩ := constrain_product_lays h (eval?_sub (eval?_constant 1) hb) hb hz
  exact ⟨t, ht.congr (by simp [hv])⟩

/-- A bit that is allocated with a value stands for it, and is a wire unless it is a constant. -/
theorem alloc_lays (h : s.Filled) (how : Allocation) (v : Bool) :
    ∃ b t, Lays (alloc how (some v)) s True b t ∧ t.BitIs b v ∧ (how ≠ .constant → b.IsWire) := by
  cases how with
  | constant => exact ⟨.constant v, s, .pure h _, bitIs_constant v, fun hn ↦ (hn rfl).elim⟩
  | input =>
    obtain ⟨t, ht, hv⟩ := newInput_lays h (scalarOfBool v)
    obtain ⟨u, hu⟩ := boolean_lays ht.grows.filled hv
    have hp := Lays.pure hu.grows.filled (Bit.wire (.input s.inputs) false)
    refine ⟨_, u, (ht.bind (hu.bind hp)).congr (by simp), ?_, fun _ ↦ by simp [IsWire]⟩
    exact bitIs_wire.2 (hu.grows.keeps _ _ hv)
  | witness =>
    obtain ⟨t, ht, hv⟩ := newWitness_lays h (scalarOfBool v)
    obtain ⟨u, hu⟩ := boolean_lays ht.grows.filled hv
    have hp := Lays.pure hu.grows.filled (Bit.wire (.witness s.witnesses) false)
    refine ⟨_, u, (ht.bind (hu.bind hp)).congr (by simp), ?_, fun _ ↦ by simp [IsWire]⟩
    exact bitIs_wire.2 (hu.grows.keeps _ _ hv)

/-- Demanding a value of a wire demands that the wire stands for it. Demanding the value of a
constant of that value demands nothing more. -/
theorem demand_lays (expected : Bool) (h : s.Filled) {b : Bit} {v : Bool} (hb : s.BitIs b v)
    (hw : b.IsWire ∨ b = .constant expected) :
    ∃ t, Lays (b.demand expected) s (v = expected) () t := by
  rcases hw with hw | rfl
  · cases b with
    | constant _ => exact hw.elim
    | wire c negated =>
      have hz : s.eval? [] = some 0 := rfl
      cases expected with
      | true =>
        obtain ⟨t, ht⟩ :=
          constrain_product_lays h (eval?_sub (eval?_constant 1) hb) (eval?_constant 1) hz
        exact ⟨t, ht.congr (by cases v <;> decide)⟩
      | false =>
        obtain ⟨t, ht⟩ := constrain_product_lays h hb (eval?_constant 1) hz
        exact ⟨t, ht.congr (by cases v <;> decide)⟩
  · have hv : expected = v := bitIs_constant_iff.1 hb
    have hd : (Bit.constant expected).demand expected = pure () := if_pos rfl
    rw [hd]
    exact ⟨s, (Lays.pure h ()).congr (by simp [hv])⟩

/-- Demanding a value of bits one by one demands that all of them stand for it. -/
theorem demandAll_lays (h : s.Filled) {bs : List Bit} {vs : List Bool} {expected : Bool}
    (hb : s.BitsAre bs vs) (hw : ∀ b ∈ bs, b.IsWire ∨ b = .constant expected) :
    ∃ t, Lays (bs.forM (demand expected)) s (∀ v ∈ vs, v = expected) () t := by
  induction bs generalizing s vs with
  | nil =>
    cases hb
    exact ⟨s, (Lays.pure h ()).congr (by simp)⟩
  | cons b bs ih =>
    cases hb with
    | cons hbv hbs =>
      obtain ⟨t, ht⟩ := demand_lays expected h hbv (hw b (by simp))
      obtain ⟨u, hu⟩ := ih ht.grows.filled (ht.grows.keeps.bitsAre hbs)
        fun b' hb' ↦ hw b' (by simp [hb'])
      exact ⟨u, (ht.bind hu).congr (by simp)⟩

/-- The value of the selected bit is known when the values of the three bits are. -/
theorem chosen?_eq {which yes no : Bit} {v y n : Bool} (hw : s.BitIs which v) (hy : s.BitIs yes y)
    (hn : s.BitIs no n) : chosen? s which yes no = some (if v then y else n) := by
  simp only [chosen?, hw.bit?, hy.bit?, hn.bit?, Option.bind_eq_bind, Option.bind_some]
  cases v <;> rfl

/-- A selected bit stands for the value of the side that is selected. -/
theorem select_lays (h : s.Filled) {which yes no : Bit} {v y n : Bool} (hw : s.BitIs which v)
    (hy : s.BitIs yes y) (hn : s.BitIs no n) :
    ∃ b t, Lays (select which yes no) s True b t ∧ t.BitIs b (if v then y else n) := by
  -- A new column is the choice; its gate holds because the column is given the chosen value.
  have hnew : ∃ b t, Lays (do
      let s ← get
      let c ← newWitness ((chosen? s which yes no).map scalarOfBool)
      constrain (.product which.form (yes.form.sub no.form) ((Form.column c).sub no.form))
      pure (Bit.wire c false)) s True b t ∧ t.BitIs b (if v then y else n) := by
    obtain ⟨t, ht, hc⟩ := newWitness_lays h (scalarOfBool (if v then y else n))
    have hk := ht.grows.keeps
    have hf := eval?_sub (hk.bitIs hy) (hk.bitIs hn)
    have hg := eval?_sub ((eval?_column _).trans hc) (hk.bitIs hn)
    obtain ⟨u, hu⟩ := constrain_product_lays ht.grows.filled (hk.bitIs hw) hf hg
    have hv : scalarOfBool v * (scalarOfBool y - scalarOfBool n)
        = scalarOfBool (if v then y else n) - scalarOfBool n := by
      cases v <;> cases y <;> cases n <;> decide
    have hp := Lays.pure hu.grows.filled (Bit.wire (.witness s.witnesses) false)
    have hl : Lays (do
        let c ← newWitness (some (scalarOfBool (if v then y else n)))
        constrain (.product which.form (yes.form.sub no.form) ((Form.column c).sub no.form))
        pure (Bit.wire c false)) s True (.wire (.witness s.witnesses) false) u :=
      (ht.bind (hu.bind hp)).congr (by simp [hv])
    refine ⟨_, u, .get ?_, bitIs_wire.2 (hu.grows.keeps _ _ hc)⟩
    rw [chosen?_eq hw hy hn]
    exact hl
  cases which with
  | constant b =>
    obtain rfl := bitIs_constant_iff.1 hw
    refine ⟨if b then yes else no, s, .pure h _, ?_⟩
    cases b
    · exact hn
    · exact hy
  | wire c negated =>
    cases yes with
    | wire _ _ => exact hnew
    | constant y' =>
      obtain rfl := bitIs_constant_iff.1 hy
      cases no with
      | wire _ _ => exact hnew
      | constant n' =>
        obtain rfl := bitIs_constant_iff.1 hn
        refine ⟨_, s, .pure h _, ?_⟩
        cases y' <;> cases n'
        · cases v <;> exact bitIs_constant false
        · have hn' := hw.not
          cases v <;> exact hn'
        · cases v <;> exact hw
        · cases v <;> exact bitIs_constant true

end Bit

end TreeProver.Circuit
