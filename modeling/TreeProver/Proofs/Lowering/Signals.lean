import TreeProver.Circuit.Lowering
import TreeProver.Proofs.Layout.Bits

/-!
# Rows that hold

Behind the columns of a layout a lowering adds columns of its own, and rows over both. `Emits` says
of an action that every row it leaves behind holds for the values of all these columns, and that no
value changes. The actions on single bits emit rows that hold, and their signals stand for the
values that they carry.
-/

namespace TreeProver.Circuit

open scoped Fin.CommRing

open Layout

variable {α β γ δ : Type} {s : Layout} {l t u : Lowering}

namespace Layout

/-- The layout with the columns of a lowering behind its own. -/
def extend (s : Layout) (l : Lowering) : Layout :=
  { s with witnesses := l.witnesses, witnessValues := s.witnessValues ++ l.values }

/-- The forms of a row have values, and the product of the first two is the third. -/
def RowHolds (s : Layout) (r : Form × Form × Form) : Prop :=
  ∃ x y z, s.eval? r.1 = some x ∧ s.eval? r.2.1 = some y ∧ s.eval? r.2.2 = some z ∧ x * y = z

/-- A row that holds keeps holding. -/
theorem Keeps.rowHolds {s t : Layout} (h : s.Keeps t) {r : Form × Form × Form}
    (hr : s.RowHolds r) : t.RowHolds r := by
  obtain ⟨x, y, z, hx, hy, hz, he⟩ := hr
  exact ⟨x, y, z, h.eval? hx, h.eval? hy, h.eval? hz, he⟩

/-- A signal carries a truth value, and its bit stands for it. -/
structure SignalIs (s : Layout) (a : Signal) (v : Bool) : Prop where
  value : a.value = v
  bit : s.BitIs a.bit v

/-- Signals carry truth values, one by one. -/
abbrev SignalsAre (s : Layout) : List Signal → List Bool → Prop := List.Forall₂ s.SignalIs

/-- A layout that keeps the values of the columns keeps what signals stand for. -/
theorem Keeps.signalIs {s t : Layout} (h : s.Keeps t) {a : Signal} {v : Bool}
    (ha : s.SignalIs a v) : t.SignalIs a v := ⟨ha.value, h.bitIs ha.bit⟩

/-- A layout that keeps the values of the columns keeps what signals stand for. -/
theorem Keeps.signalsAre {s t : Layout} (h : s.Keeps t) {as : List Signal} {vs : List Bool}
    (ha : s.SignalsAre as vs) : t.SignalsAre as vs := ha.imp fun _ _ hv ↦ h.signalIs hv

/-- The bits of signals stand for what the signals carry. -/
theorem SignalsAre.bits {as : List Signal} {vs : List Bool} (h : s.SignalsAre as vs) :
    s.BitsAre (as.map Signal.bit) vs := by
  rw [BitsAre, List.forall₂_map_left_iff]
  exact h.imp fun _ _ hv ↦ hv.bit

/-- The values of signals are what they carry. -/
theorem SignalsAre.values {as : List Signal} {vs : List Bool} (h : s.SignalsAre as vs) :
    as.map Signal.value = vs := by
  induction h with
  | nil => rfl
  | cons ha _ ih => rw [List.map_cons, ih, ha.value]

/-- A constant signal carries its constant. -/
theorem signalIs_constant (b : Bool) : s.SignalIs ⟨.constant b, b⟩ b := ⟨rfl, bitIs_constant b⟩

end Layout

/-- The columns of the lowering are numbered behind those of the layout and have values, and its
rows hold. -/
structure Lowering.Sound (s : Layout) (l : Lowering) : Prop where
  witnesses : l.witnesses = s.witnessValues.size + l.values.size
  rows : ∀ r ∈ l.rows, (s.extend l).RowHolds r

namespace Lower

/-- Behind the layout the action gives `a` and goes on to the lowering `t`, whose rows hold, without
changing a value. -/
structure Emits (act : Lower α) (s : Layout) (l : Lowering) (a : α) (t : Lowering) : Prop where
  run : act.run l = (a, t)
  sound : t.Sound s
  keeps : (s.extend l).Keeps (s.extend t)

/-- Doing nothing emits nothing. -/
theorem Emits.pure (h : l.Sound s) (a : α) : Emits (pure a) s l a l := ⟨rfl, h, .refl _⟩

/-- A sequence of actions emits what its parts emit. -/
theorem Emits.bind {act : Lower α} {f : α → Lower β} {a : α} {b : β} (h : Emits act s l a t)
    (h' : Emits (f a) s t b u) : Emits (act >>= f) s l b u where
  run := by
    have hb : (act >>= f).run l = (f (act.run l).1).run (act.run l).2 := rfl
    rw [hb, h.run]
    exact h'.run
  sound := h'.sound
  keeps := h.keeps.trans h'.keeps

/-- An action for every element of a list, where what comes out stands for a function of what the
element stands for. -/
theorem mapM_emits {f : α → Lower β} {g : γ → δ} {p : Layout → α → γ → Prop}
    {q : Layout → β → δ → Prop}
    (hk : ∀ {s t : Layout}, s.Keeps t → ∀ {x v}, p s x v → p t x v)
    (hk' : ∀ {s t : Layout}, s.Keeps t → ∀ {y v}, q s y v → q t y v)
    (hf : ∀ {l : Lowering} {x v}, l.Sound s → p (s.extend l) x v →
      ∃ y t, Emits (f x) s l y t ∧ q (s.extend t) y (g v))
    (h : l.Sound s) {xs : List α} {vs : List γ} (hx : List.Forall₂ (p (s.extend l)) xs vs) :
    ∃ ys t, Emits (xs.mapM f) s l ys t ∧
      List.Forall₂ (q (s.extend t)) ys (vs.map g) := by
  induction xs generalizing l vs with
  | nil =>
    cases hx
    exact ⟨[], l, .pure h [], .nil⟩
  | cons x xs ih =>
    cases hx with
    | cons hxv hxs =>
      obtain ⟨y, t, hy, hyv⟩ := hf h hxv
      obtain ⟨ys, u, hu, hys⟩ := ih hy.sound (hxs.imp fun _ _ h' ↦ hk hy.keeps h')
      have hp : Emits (Pure.pure (y :: ys)) s u (y :: ys) u := .pure hu.sound _
      refine ⟨y :: ys, u, ?_, .cons (hk' hu.keeps hyv) hys⟩
      rw [List.mapM_cons]
      exact hy.bind (hu.bind hp)

/-- An array keeps its elements when one is added behind them. -/
private theorem getElem?_append_push {xs ys : Array Fr} {i : Nat} {x y : Fr}
    (h : (xs ++ ys)[i]? = some y) : (xs ++ ys.push x)[i]? = some y := by
  obtain ⟨hi, rfl⟩ := Array.getElem?_eq_some_iff.1 h
  rw [← Array.push_append]
  exact Array.getElem?_push_lt hi

/-- A new column for a bit stands for the value that it is given. -/
theorem newBit_emits (h : l.Sound s) (v : Bool) :
    ∃ a t, Emits (newBit v) s l a t ∧ (s.extend t).SignalIs a v := by
  let t : Lowering :=
    { l with witnesses := l.witnesses + 1, values := l.values.push (scalarOfBool v) }
  have hk : (s.extend l).Keeps (s.extend t) := by
    intro c x hx
    cases c with
    | one => exact hx
    | input i => exact hx
    | witness i => exact getElem?_append_push hx
  have hv : (s.extend t).value? (.witness l.witnesses) = some (scalarOfBool v) := by
    show (s.witnessValues ++ l.values.push (scalarOfBool v))[l.witnesses]? = _
    rw [h.witnesses, ← Array.push_append, ← Array.size_append, Array.getElem?_push_size]
  refine ⟨⟨.wire (.witness l.witnesses) false, v⟩, t, ⟨rfl, ⟨?_, ?_⟩, hk⟩, rfl, bitIs_wire.2 hv⟩
  · simp [t, h.witnesses, Nat.add_assoc]
  · exact fun r hr ↦ hk.rowHolds (h.rows r hr)

/-- A row that holds may be added. -/
theorem row_emits (h : l.Sound s) {a b c : Form} {x y z : Fr} (ha : (s.extend l).eval? a = some x)
    (hb : (s.extend l).eval? b = some y) (hc : (s.extend l).eval? c = some z) (he : x * y = z) :
    ∃ t, Emits (row a b c) s l () t := by
  refine ⟨{ l with rows := l.rows.push (a, b, c) }, rfl, ⟨h.witnesses, fun r hr ↦ ?_⟩, .refl _⟩
  rcases Array.mem_push.1 hr with hr | rfl
  · exact h.rows r hr
  · exact ⟨x, y, z, ha, hb, hc, he⟩

/-- A row may be added that says that two forms of one value are equal. -/
theorem row_eq_emits (h : l.Sound s) {a b : Form} {x : Fr}
    (ha : (s.extend l).eval? a = some x) (hb : (s.extend l).eval? b = some x) :
    ∃ t, Emits (row (a.sub b) (Form.constant 1) []) s l () t :=
  row_emits h (eval?_sub ha hb) (eval?_constant 1) (z := 0) rfl (by rw [sub_self, zero_mul])

/-- A new bit under a row. -/
private theorem newBit_row_emits (h : l.Sound s) {v : Bool} {a b : Form} {c : Signal → Form}
    {x y z : Fr} (ha : (s.extend l).eval? a = some x) (hb : (s.extend l).eval? b = some y)
    (hc : ∀ {t : Lowering} {r : Signal}, (s.extend l).Keeps (s.extend t) →
      (s.extend t).SignalIs r v → (s.extend t).eval? (c r) = some z) (he : x * y = z) :
    ∃ r t, Emits (do
      let r ← newBit v
      row a b (c r)
      pure r) s l r t ∧ (s.extend t).SignalIs r v := by
  obtain ⟨r, t, hr, hrv⟩ := newBit_emits h v
  obtain ⟨u, hu⟩ := row_emits hr.sound (hr.keeps.eval? ha) (hr.keeps.eval? hb)
    (hc hr.keeps hrv) he
  exact ⟨r, u, hr.bind (hu.bind (.pure hu.sound r)), hu.keeps.signalIs hrv⟩

/-- The exclusive or of two signals carries that of their values. -/
theorem xor_emits (h : l.Sound s) {a b : Signal} {v w : Bool} (ha : (s.extend l).SignalIs a v)
    (hb : (s.extend l).SignalIs b w) :
    ∃ r t, Emits (xor a b) s l r t ∧ (s.extend t).SignalIs r (v != w) := by
  obtain ⟨abit, v⟩ := a
  obtain ⟨bbit, w⟩ := b
  obtain ⟨rfl, ha⟩ := ha
  obtain ⟨rfl, hb⟩ := hb
  cases abit with
  | constant x =>
    obtain rfl := bitIs_constant_iff.1 ha
    refine ⟨⟨bbit.flip x, x != w⟩, l, .pure h _, rfl, ?_⟩
    rw [bne_comm]
    exact hb.flip x
  | wire c n =>
    cases bbit with
    | constant y =>
      obtain rfl := bitIs_constant_iff.1 hb
      exact ⟨⟨(Bit.wire c n).flip y, v != y⟩, l, .pure h _, rfl, ha.flip y⟩
    | wire d m =>
      have he : 2 * scalarOfBool v * scalarOfBool w
          = scalarOfBool v + scalarOfBool w - scalarOfBool (v != w) := by
        cases v <;> cases w <;> decide
      exact newBit_row_emits h (eval?_scale 2 ha) hb
        (fun hk hr ↦ eval?_sub (eval?_append (hk.bitIs ha) (hk.bitIs hb)) hr.bit) he

/-- The choice between two signals carries the value of the chosen one. -/
theorem mux_emits (h : l.Sound s) {which yes no : Signal} {v y n : Bool}
    (hw : (s.extend l).SignalIs which v) (hy : (s.extend l).SignalIs yes y)
    (hn : (s.extend l).SignalIs no n) :
    ∃ r t, Emits (mux which yes no) s l r t ∧ (s.extend t).SignalIs r (if v then y else n) := by
  obtain ⟨wbit, v⟩ := which
  obtain ⟨rfl, hw⟩ := hw
  cases wbit with
  | constant b =>
    obtain rfl := bitIs_constant_iff.1 hw
    refine ⟨if b then yes else no, l, .pure h _, ?_⟩
    cases b
    · exact hn
    · exact hy
  | wire c m =>
    obtain ⟨ybit, y⟩ := yes
    obtain ⟨nbit, n⟩ := no
    obtain ⟨rfl, hy⟩ := hy
    obtain ⟨rfl, hn⟩ := hn
    have he : scalarOfBool v * (scalarOfBool y - scalarOfBool n)
        = scalarOfBool (if v then y else n) - scalarOfBool n := by
      cases v <;> cases y <;> cases n <;> decide
    exact newBit_row_emits h hw (eval?_sub hy hn)
      (fun hk hr ↦ eval?_sub hr.bit (hk.bitIs hn)) he

/-- The majority of three signals carries the value that most of them carry. -/
theorem majority_emits (h : l.Sound s) {a b c : Signal} {v w x : Bool}
    (ha : (s.extend l).SignalIs a v) (hb : (s.extend l).SignalIs b w)
    (hc : (s.extend l).SignalIs c x) :
    ∃ r t, Emits (majority a b c) s l r t ∧
      (s.extend t).SignalIs r (if v != w then x else v) := by
  obtain ⟨d, t, hd, hdv⟩ := xor_emits h ha hb
  obtain ⟨r, u, hu, hr⟩ := mux_emits hd.sound hdv (hd.keeps.signalIs hc) (hd.keeps.signalIs ha)
  exact ⟨r, u, hd.bind hu, hr⟩

end Lower

end TreeProver.Circuit
