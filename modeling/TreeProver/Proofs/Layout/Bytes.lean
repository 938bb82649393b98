import TreeProver.Circuit.Buffer
import TreeProver.Proofs.Layout.Bits

/-!
# Laying out bytes, nodes and indices

Bytes are octets of bits, so what holds of bits holds of them place by place. Comparing bytes packs
each into one number below 256, which is far below the scalar modulus, so equal numbers are equal
bytes. A comparison is a demand as soon as the bytes on one side are wires.
-/

namespace TreeProver.Circuit

open scoped Fin.CommRing

open Layout Synth

variable {α β : Type} {s t : Layout} {p : Prop}

/-- Going through the places of an octet succeeds when going through its list does. -/
theorem run_octet_mapM {f : α → Synth β} {o : Octet α} {ys : List β}
    (h : (o.toList.mapM f).run s = (.ok ys, t)) :
    ∃ r : Octet β, r.toList = ys ∧ (o.mapM f).run s = (.ok r, t) := by
  have he : (do let r ← o.mapM f; pure r.toList) = o.toList.mapM f := by
    simp [Octet.mapM, Octet.toList]
  rw [← he] at h
  obtain ⟨r, u, hr, hp⟩ := run_bind_ok_iff.1 h
  obtain ⟨hy, rfl⟩ := Prod.mk.inj hp
  exact ⟨r, Except.ok.inj hy, hr⟩

/-- Going through the places of an octet is going through its list. -/
theorem octet_mapM_lays {f : α → Synth β} {o : Octet α} {ys : List β}
    (h : Lays (o.toList.mapM f) s p ys t) :
    ∃ r : Octet β, r.toList = ys ∧ Lays (o.mapM f) s p r t := by
  obtain ⟨r, hr, hrun⟩ := run_octet_mapM h.run
  exact ⟨r, hr, hrun, h.grows⟩

/-- Natural numbers below the modulus are equal as scalars only if they are equal. -/
theorem natCast_scalar_inj {m n : Nat} (hm : m < scalarModulus) (hn : n < scalarModulus) :
    ((m : ℕ) : Fr) = ((n : ℕ) : Fr) ↔ m = n := by
  have hc (k : Nat) : ((k : ℕ) : Fr).val = k % scalarModulus := rfl
  rw [Fin.ext_iff, hc, hc, Nat.mod_eq_of_lt hm, Nat.mod_eq_of_lt hn]

namespace Byte

/-- All bits of the byte are wires. -/
def IsWired (b : Byte) : Prop := ∀ x ∈ b.toList, x.IsWire

/-- The form of a byte of wires depends on values. -/
theorem IsWired.form_isConstant {b : Byte} (h : b.IsWired) : (form b).isConstant = false := by
  have hb : b.b0.form.isConstant = false := (h b.b0 (by simp [Octet.toList])).form_isConstant
  rw [form, Bit.sum, Bit.isConstant_sumFrom]
  simp [Octet.toList, hb]

/-- A byte of wires is not constant. -/
theorem IsWired.isConstant_eq {b : Byte} (h : b.IsWired) : b.isConstant = false := by
  have hb : b.b0.isConstant = false := (h b.b0 (by simp [Octet.toList])).isConstant_eq
  simp [isConstant, Octet.toList, hb]

/-- The byte is a constant or consists of wires, as the truth value says. -/
def Known (b : Byte) : Bool → Prop
  | true => b.isConstant = true
  | false => b.IsWired

/-- A byte of wires is not a constant. -/
theorem IsWired.known {b : Byte} (h : b.IsWired) : b.Known false := h

/-- A constant byte is a constant. -/
theorem known_constant (x : UInt8) : (constant x).Known true := rfl

/-- Whether a byte is constant, when it is that or wires. -/
theorem Known.isConstant_eq {b : Byte} {v : Bool} (h : b.Known v) : b.isConstant = v := by
  cases v with
  | true => exact h
  | false => exact IsWired.isConstant_eq h

/-- A byte that is not a constant, but one or wires, has a form that depends on values. -/
theorem Known.isWired {b : Byte} {v : Bool} (h : b.Known v) (hc : b.isConstant = false) :
    b.IsWired := by
  rw [h.isConstant_eq] at hc
  subst hc
  exact h

/-- A constant byte stands for its constant. -/
theorem byteIs_constant (x : UInt8) : s.ByteIs (constant x) x := by
  simp [ByteIs, constant, Octet.toList, Octet.map]

/-- Constant bytes stand for their constants. -/
theorem bytesAre_constant (xs : Bytes) : s.BytesAre (xs.map constant) xs := by
  induction xs with
  | nil => exact .nil
  | cons x xs ih => exact .cons (byteIs_constant x) ih

/-- A masked byte stands for the exclusive or of its value and the mask. -/
theorem mask_byteIs {b : Byte} {x : UInt8} (h : s.ByteIs b x) (m : UInt8) :
    s.ByteIs (mask m b) (x ^^^ m) := by
  simp only [ByteIs, BitsAre, Octet.toList, Octet.ofByte, List.forall₂_cons,
    List.Forall₂.nil, and_true] at h
  simp only [ByteIs, BitsAre, Octet.toList, Octet.ofByte, mask, Octet.zipWith, UInt8.toNat_xor,
    Nat.testBit_xor, List.forall₂_cons, List.Forall₂.nil, and_true]
  obtain ⟨h0, h1, h2, h3, h4, h5, h6, h7⟩ := h
  exact ⟨h0.flip _, h1.flip _, h2.flip _, h3.flip _, h4.flip _, h5.flip _, h6.flip _, h7.flip _⟩

/-- A byte that is allocated with a value stands for it, and is wired unless it is a constant. -/
theorem alloc_lays (h : s.Filled) (how : Allocation) (x : UInt8) :
    ∃ b t, Lays (alloc how (some x)) s True b t ∧ t.ByteIs b x ∧ (how ≠ .constant → b.IsWired) := by
  obtain ⟨bs, t, hl, hs, hw⟩ := mapM_lays (f := fun v ↦ Bit.alloc how (some v))
    Keeps.bitIs (fun v hf ↦ Bit.alloc_lays hf how v) h (Octet.ofByte x).toList
  obtain ⟨b, rfl, hb⟩ := octet_mapM_lays hl
  exact ⟨b, t, hb, hs, fun hn x hx ↦ hw x hx hn⟩

/-- Bytes that are allocated with values stand for them, and are wired unless they are constants. -/
theorem allocAll_lays (h : s.Filled) (how : Allocation) (xs : Bytes) :
    ∃ bs t, Lays (allocAll how xs.length (some xs)) s True bs t ∧ t.BytesAre bs xs ∧
      ∀ b ∈ bs, how ≠ .constant → b.IsWired := by
  obtain ⟨bs, t, hl, hs, hw⟩ := mapM_lays (f := fun x ↦ Byte.alloc how (some x))
    Keeps.byteIs (fun x hf ↦ alloc_lays hf how x) h xs
  refine ⟨bs, t, ?_, hs, hw⟩
  simp only [allocAll, ne_eq, not_true_eq_false, ↓reduceIte, optionalBytes, List.mapM_map]
  exact hl

/-- Comparing two bytes, one of them of wires, demands that they stand for the same. -/
theorem demandEqual_lays (h : s.Filled) {a b : Byte} {x y : UInt8} (ha : s.ByteIs a x)
    (hb : s.ByteIs b y) (hw : a.IsWired ∨ b.IsWired) :
    ∃ t, Lays (demandEqual a b) s (x = y) () t := by
  have hlt (z : UInt8) : z.toNat < scalarModulus :=
    Nat.lt_trans z.toNat_lt (by decide)
  have hc : (a.isConstant && b.isConstant) = false := by
    rcases hw with hw | hw <;> simp [hw.isConstant_eq]
  have hf : ((form a).isConstant && (form b).isConstant) = false := by
    rcases hw with hw | hw <;> simp [hw.form_isConstant]
  obtain ⟨t, ht⟩ := equate_lays h ha.eval?_form hb.eval?_form hf
  rw [demandEqual, hc]
  exact ⟨t, ht.congr (by rw [natCast_scalar_inj (hlt x) (hlt y), UInt8.toNat_inj])⟩

/-- Comparing bytes one by one demands that they stand for the same byte string. -/
private theorem demandPairs_lays (h : s.Filled) {as bs : List Byte} {xs ys : Bytes}
    (ha : s.BytesAre as xs) (hb : s.BytesAre bs ys) (hl : as.length = bs.length)
    (hw : ∀ a ∈ as, a.IsWired) :
    ∃ t, Lays ((as.zip bs).forM fun p ↦ demandEqual p.1 p.2) s (xs = ys) () t := by
  induction as generalizing s bs xs ys with
  | nil =>
    cases ha
    obtain rfl := List.length_eq_zero_iff.1 hl.symm
    cases hb
    exact ⟨s, (Lays.pure h ()).congr (by simp)⟩
  | cons a as ih =>
    cases ha with
    | cons hax has =>
      cases hb with
      | nil => simp at hl
      | cons hby hbs =>
        obtain ⟨t, ht⟩ := demandEqual_lays h hax hby (.inl (hw a (by simp)))
        have hk := ht.grows.keeps
        obtain ⟨u, hu⟩ := ih ht.grows.filled (hk.bytesAre has) (hk.bytesAre hbs)
          (by simpa using hl) fun a' ha' ↦ hw a' (by simp [ha'])
        exact ⟨u, (ht.bind hu).congr (by simp)⟩

/-- Comparing byte strings of equal length, the first of them of wires, demands that they stand for
the same byte string. -/
theorem demandAllEqual_lays (h : s.Filled) {as bs : List Byte} {xs ys : Bytes}
    (ha : s.BytesAre as xs) (hb : s.BytesAre bs ys) (hl : as.length = bs.length)
    (hw : ∀ a ∈ as, a.IsWired) : ∃ t, Lays (demandAllEqual as bs) s (xs = ys) () t := by
  obtain ⟨t, ht⟩ := demandPairs_lays h ha hb hl hw
  refine ⟨t, ?_⟩
  simp only [demandAllEqual, hl, ne_eq, not_true_eq_false, ↓reduceIte]
  exact ht

/-- A selected byte stands for the value of the side that is selected. -/
theorem select_lays (h : s.Filled) {which : Bit} {yes no : Byte} {v : Bool} {x y : UInt8}
    (hw : s.BitIs which v) (hy : s.ByteIs yes x) (hn : s.ByteIs no y) :
    ∃ b t, Lays (select which yes no) s True b t ∧ t.ByteIs b (if v then x else y) := by
  have hlen : yes.toList.length = no.toList.length := rfl
  obtain ⟨bs, t, hl, -, hv⟩ := choices_lays (f := fun p ↦ Bit.select which p.1 p.2) Keeps.bitIs
    (fun hf hk hb hc ↦ Bit.select_lays hf (hk.bitIs hw) hb hc) h hlen hy hn
  obtain ⟨b, rfl, hb⟩ := octet_mapM_lays (o := Octet.zipWith Prod.mk yes no) hl
  refine ⟨b, t, hb, ?_⟩
  cases v
  · exact hv
  · exact hv

end Byte

end TreeProver.Circuit
