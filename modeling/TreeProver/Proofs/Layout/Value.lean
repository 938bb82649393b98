import Mathlib.Data.ZMod.Defs
import Mathlib.Tactic.Ring
import TreeProver.Circuit.Byte
import TreeProver.Proofs.Binary.Digits

/-!
# What a layout says about its bits

A bit, a byte, a node or an index inside a circuit stands for a value in a layout when its form has
that value there. Being zero or one is part of it: a wire whose column holds any other number stands
for nothing. A layout that keeps all values of another says the same about everything in it.
-/

namespace TreeProver.Circuit

open scoped Fin.CommRing

/-- As many values as asked for, or none of them known. -/
theorem Byte.length_optionalBytes {length : Nat} {v : Option Bytes}
    (h : ∀ xs, v = some xs → xs.length = length) :
    (Byte.optionalBytes length v).length = length := by
  cases v with
  | none => simp [Byte.optionalBytes]
  | some xs => simp [Byte.optionalBytes, h xs rfl]

/-- The values of a word are those of its 32 bytes, known or not. -/
theorem Byte.length_optionalBytes_word (d : Option Word) :
    (Byte.optionalBytes Word.size (d.map Word.bytes)).length = Word.size := by
  refine Byte.length_optionalBytes fun xs hx ↦ ?_
  obtain ⟨w, -, rfl⟩ := Option.map_eq_some_iff.1 hx
  exact w.length_bytes

namespace Layout

variable {s t : Layout}

/-- Every value of the first layout is a value of the second. -/
def Keeps (s t : Layout) : Prop := ∀ c x, s.value? c = some x → t.value? c = some x

/-- A layout keeps its own values. -/
theorem Keeps.refl (s : Layout) : s.Keeps s := fun _ _ h ↦ h

/-- Keeping is transitive. -/
theorem Keeps.trans {u : Layout} (h : s.Keeps t) (h' : t.Keeps u) : s.Keeps u :=
  fun c x hx ↦ h' c x (h c x hx)

/-- The value of a concatenation is the sum. -/
theorem eval?_append {f g : Form} {x y : Fr} (hf : s.eval? f = some x)
    (hg : s.eval? g = some y) : s.eval? (f ++ g) = some (x + y) := by
  induction f generalizing x with
  | nil =>
    obtain rfl : 0 = x := by simpa [eval?] using hf
    simpa using hg
  | cons t f ih =>
    obtain ⟨k, c⟩ := t
    simp only [eval?, Option.bind_eq_bind, Option.bind_eq_some_iff, Option.some.injEq] at hf
    obtain ⟨v, hv, w, hw, rfl⟩ := hf
    simp [eval?, hv, ih hw, add_assoc]

/-- The value of a multiple is the multiple of the value. -/
theorem eval?_scale {f : Form} {x : Fr} (k : Fr) (hf : s.eval? f = some x) :
    s.eval? (f.scale k) = some (k * x) := by
  induction f generalizing x with
  | nil =>
    obtain rfl : 0 = x := by simpa [eval?] using hf
    simp [Form.scale, eval?]
  | cons t f ih =>
    obtain ⟨l, c⟩ := t
    simp only [eval?, Option.bind_eq_bind, Option.bind_eq_some_iff, Option.some.injEq] at hf
    obtain ⟨v, hv, w, hw, rfl⟩ := hf
    have hs : (Form.scale k ((l, c) :: f)) = (k * l, c) :: Form.scale k f := rfl
    simp only [hs, eval?, hv, ih hw, Option.bind_eq_bind, Option.bind_some]
    congr 1
    ring

/-- The value of a difference is the difference of the values. -/
theorem eval?_sub {f g : Form} {x y : Fr} (hf : s.eval? f = some x)
    (hg : s.eval? g = some y) : s.eval? (f.sub g) = some (x - y) := by
  rw [Form.sub, eval?_append hf (eval?_scale (-1) hg)]
  congr 1
  ring

/-- A constant form has its constant as value. -/
@[simp] theorem eval?_constant (x : Fr) : s.eval? (Form.constant x) = some x := by
  simp [Form.constant, eval?, value?]

/-- The form of a column has the value of the column. -/
@[simp] theorem eval?_column (c : Column) : s.eval? (Form.column c) = s.value? c := by
  cases h : s.value? c <;> simp [Form.column, eval?, h]

/-- A layout that keeps the values of the columns keeps the values of forms. -/
theorem Keeps.eval? (h : s.Keeps t) {f : Form} {x : Fr} (hf : s.eval? f = some x) :
    t.eval? f = some x := by
  induction f generalizing x with
  | nil => simpa [Layout.eval?] using hf
  | cons e f ih =>
    obtain ⟨k, c⟩ := e
    simp only [Layout.eval?, Option.bind_eq_bind, Option.bind_eq_some_iff,
      Option.some.injEq] at hf
    obtain ⟨v, hv, w, hw, rfl⟩ := hf
    simp [Layout.eval?, h c v hv, ih hw]

/-- A bit stands for a truth value. -/
def BitIs (s : Layout) (b : Bit) (v : Bool) : Prop := s.eval? b.form = some (scalarOfBool v)

/-- Bits stand for truth values, one by one. -/
abbrev BitsAre (s : Layout) : List Bit → List Bool → Prop := List.Forall₂ s.BitIs

/-- A byte stands for a value. -/
def ByteIs (s : Layout) (b : Byte) (x : UInt8) : Prop := s.BitsAre b.toList (Octet.ofByte x).toList

/-- Bytes stand for a byte string. -/
abbrev BytesAre (s : Layout) : List Byte → Bytes → Prop := List.Forall₂ s.ByteIs

/-- A node stands for a word. -/
def NodeIs (s : Layout) (n : Node) (w : Word) : Prop := s.BytesAre n.bytes w.bytes

/-- An index stands for a number. -/
def IndexIs (s : Layout) (i : Index) (g : UInt64) : Prop :=
  s.BitsAre i.bits (Octet.bitsOfNat 64 g.toNat)

/-- A layout that keeps the values of the columns keeps what bits stand for. -/
theorem Keeps.bitIs (h : s.Keeps t) {b : Bit} {v : Bool} (hb : s.BitIs b v) : t.BitIs b v :=
  h.eval? hb

/-- A layout that keeps the values of the columns keeps what bits stand for. -/
theorem Keeps.bitsAre (h : s.Keeps t) {bs : List Bit} {vs : List Bool} (hb : s.BitsAre bs vs) :
    t.BitsAre bs vs := hb.imp fun _ _ hv ↦ h.bitIs hv

/-- A layout that keeps the values of the columns keeps what bytes stand for. -/
theorem Keeps.byteIs (h : s.Keeps t) {b : Byte} {x : UInt8} (hb : s.ByteIs b x) : t.ByteIs b x :=
  h.bitsAre hb

/-- A layout that keeps the values of the columns keeps what bytes stand for. -/
theorem Keeps.bytesAre (h : s.Keeps t) {bs : List Byte} {xs : Bytes} (hb : s.BytesAre bs xs) :
    t.BytesAre bs xs := hb.imp fun _ _ hx ↦ h.byteIs hx

/-- A layout that keeps the values of the columns keeps what nodes stand for. -/
theorem Keeps.nodeIs (h : s.Keeps t) {n : Node} {w : Word} (hn : s.NodeIs n w) : t.NodeIs n w :=
  h.bytesAre hn

/-- A truth value is determined by its scalar. -/
theorem scalarOfBool_ne_zero (v : Bool) : decide (scalarOfBool v ≠ 0) = v := by
  cases v <;> decide

/-- Scalars of truth values are equal exactly when the truth values are. -/
theorem scalarOfBool_inj {v w : Bool} : scalarOfBool v = scalarOfBool w ↔ v = w := by
  cases v <;> cases w <;> decide

/-- A constant bit stands for its constant. -/
@[simp] theorem bitIs_constant (b : Bool) : s.BitIs (.constant b) b := by
  cases b <;> simp [BitIs, Bit.form, scalarOfBool, eval?]

/-- A constant bit stands for nothing but its constant. -/
theorem bitIs_constant_iff {b v : Bool} : s.BitIs (.constant b) v ↔ b = v := by
  constructor
  · intro h
    have hb : s.BitIs (.constant b) b := bitIs_constant b
    rw [BitIs, h, Option.some.injEq, scalarOfBool_inj] at hb
    exact hb.symm
  · rintro rfl
    exact bitIs_constant b

/-- A wire stands for the truth value in its column. -/
theorem bitIs_wire {c : Column} {v : Bool} : s.BitIs (.wire c false) v
    ↔ s.value? c = some (scalarOfBool v) := by
  simp [BitIs, Bit.form]

/-- The opposite of a bit stands for the opposite truth value. -/
theorem BitIs.not {b : Bit} {v : Bool} (h : s.BitIs b v) : s.BitIs b.not !v := by
  have hflip : (1 : Fr) - scalarOfBool v = scalarOfBool !v := by cases v <;> decide
  cases b with
  | constant b =>
    obtain rfl := bitIs_constant_iff.1 h
    exact bitIs_constant _
  | wire c negated =>
    cases negated with
    | false =>
      have hc := bitIs_wire.1 h
      have hs := eval?_sub (eval?_constant (s := s) 1) ((eval?_column c).trans hc)
      rw [hflip] at hs
      exact hs
    | true =>
      -- The column itself holds the opposite of what the negated wire stands for.
      have hs : s.eval? ((Form.constant 1).sub (Form.column c)) = some (scalarOfBool v) := h
      cases hc : s.value? c with
      | none => simp [Form.sub, Form.constant, Form.column, Form.scale, eval?, hc] at hs
      | some x =>
        rw [eval?_sub (eval?_constant 1) ((eval?_column c).trans hc), Option.some.injEq] at hs
        refine bitIs_wire.2 ?_
        rw [hc, ← hflip, ← hs]
        congr 1
        ring

/-- Flipping a bit flips the truth value that it stands for. -/
theorem BitIs.flip {b : Bit} {v : Bool} (h : s.BitIs b v) (opposite : Bool) :
    s.BitIs (b.flip opposite) (v ^^ opposite) := by
  cases opposite with
  | false => simpa [Bit.flip] using h
  | true => simpa [Bit.flip] using h.not

/-- What a bit stands for is its value. -/
theorem BitIs.bit? {b : Bit} {v : Bool} (h : s.BitIs b v) : s.bit? b = some v := by
  cases b with
  | constant b =>
    obtain rfl := bitIs_constant_iff.1 h
    rfl
  | wire c negated =>
    cases negated with
    | false =>
      rw [Layout.bit?, bitIs_wire.1 h, Option.map_some, scalarOfBool_ne_zero]
      simp
    | true =>
      have hn : s.BitIs (.wire c false) !v := h.not
      rw [Layout.bit?, bitIs_wire.1 hn, Option.map_some, scalarOfBool_ne_zero]
      simp

/-- A list of bits has the values that it stands for. -/
theorem BitsAre.mapM_bit? {bs : List Bit} {vs : List Bool} (h : s.BitsAre bs vs) :
    bs.mapM s.bit? = some vs := by
  induction h with
  | nil => rfl
  | cons hb _ ih => simp [hb.bit?, ih]

/-- Mapping over the places of an octet is mapping over its list. -/
theorem mapM_toList {α β : Type} (f : α → Option β) (o : Octet α) :
    (o.mapM f).map Octet.toList = o.toList.mapM f := by
  obtain ⟨a0, a1, a2, a3, a4, a5, a6, a7⟩ := o
  simp [Octet.mapM, Octet.toList, Option.map_bind, Function.comp_def, Option.bind_assoc]

/-- What a byte stands for is its value. -/
theorem ByteIs.byte? {b : Byte} {x : UInt8} (h : s.ByteIs b x) : s.byte? b = some x := by
  have hl := mapM_toList s.bit? b
  rw [BitsAre.mapM_bit? h, Option.map_eq_some_iff] at hl
  obtain ⟨o, ho, he⟩ := hl
  rw [Layout.byte?, ho, Octet.toList_inj he, Option.map_some, Octet.toByte_ofByte]

/-- What bytes stand for is their value. -/
theorem BytesAre.bytes? {bs : List Byte} {xs : Bytes} (h : s.BytesAre bs xs) :
    s.bytes? bs = some xs := by
  induction h with
  | nil => rfl
  | cons hb _ ih =>
    rw [Layout.bytes?] at ih ⊢
    simp [hb.byte?, ih]

/-- Bytes stand for at most one byte string. -/
theorem BytesAre.unique {bs : List Byte} {xs ys : Bytes} (h : s.BytesAre bs xs)
    (h' : s.BytesAre bs ys) : xs = ys := by
  have he := h.bytes?
  rw [h'.bytes?] at he
  exact (Option.some.inj he).symm

/-- The bits of bytes in order stand for the bits of their values. -/
theorem BytesAre.flatMap_toList {bs : List Byte} {xs : Bytes} (h : s.BytesAre bs xs) :
    s.BitsAre (bs.flatMap Octet.toList) (xs.flatMap fun x ↦ (Octet.ofByte x).toList) := by
  induction h with
  | nil => exact .nil
  | cons hc _ ih => exact List.rel_append hc ih

/-- The bits of bytes from the low end stand for the bits of their values. -/
theorem BytesAre.bits {bs : List Byte} {xs : Bytes} (h : s.BytesAre bs xs) :
    s.BitsAre (bs.reverse.flatMap Octet.toList)
      (xs.reverse.flatMap fun x ↦ (Octet.ofByte x).toList) :=
  BytesAre.flatMap_toList (List.rel_reverse h)

/-- A weighted sum of bits has the weighted number as value. -/
theorem BitsAre.eval?_sumFrom {bs : List Bit} {vs : List Bool} (h : s.BitsAre bs vs)
    (weight : Fr) : s.eval? (Bit.sumFrom weight bs)
      = some (weight * ((Octet.bitsToNat vs : ℕ) : Fr)) := by
  induction h generalizing weight with
  | nil => simp [Bit.sumFrom, Octet.bitsToNat, eval?]
  | @cons b v bs vs hb _ ih =>
    have hv : ((v.toNat : ℕ) : Fr) = scalarOfBool v := by cases v <;> rfl
    rw [Bit.sumFrom, eval?_append (eval?_scale weight hb) (ih (weight + weight)),
      Octet.bitsToNat, Nat.cast_add, Nat.cast_mul, hv]
    congr 1
    push_cast
    ring

/-- The sum of bits has the number that they spell as value. -/
theorem BitsAre.eval?_sum {bs : List Bit} {vs : List Bool} (h : s.BitsAre bs vs) :
    s.eval? (Bit.sum bs) = some ((Octet.bitsToNat vs : ℕ) : Fr) := by
  rw [Bit.sum, h.eval?_sumFrom, one_mul]

/-- The form of a byte has the number of the byte as value. -/
theorem ByteIs.eval?_form {b : Byte} {x : UInt8} (h : s.ByteIs b x) :
    s.eval? (Byte.form b) = some ((x.toNat : ℕ) : Fr) := by
  rw [Byte.form, BitsAre.eval?_sum h, Octet.bitsToNat_ofByte]

end Layout

end TreeProver.Circuit
