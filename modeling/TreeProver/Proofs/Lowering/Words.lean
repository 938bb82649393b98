import Mathlib
import TreeProver.Proofs.Binary.Words32
import TreeProver.Proofs.Lowering.Signals

/-!
# Words that are computed by rows

A word of signals carries a 32-bit word when its signals carry the bits of it. Rotations and shifts
move signals about; the logical functions and sums emit rows that hold, and what comes out carries
the value that the operation has outside a circuit.
-/

namespace TreeProver.Circuit

open scoped Fin.CommRing

open Layout Lower

variable {s : Layout} {l : Lowering}

namespace Layout

/-- A word of signals carries a 32-bit word. -/
def WordIs (s : Layout) (w : SignalWord) (x : UInt32) : Prop := s.SignalsAre w (Sha256.bits x)

/-- Words of signals carry 32-bit words, one by one. -/
abbrev WordsAre (s : Layout) : List SignalWord → List UInt32 → Prop := List.Forall₂ s.WordIs

/-- A layout that keeps the values of the columns keeps what words of signals stand for. -/
theorem Keeps.wordIs {s t : Layout} (h : s.Keeps t) {w : SignalWord} {x : UInt32}
    (hw : s.WordIs w x) : t.WordIs w x := h.signalsAre hw

/-- A layout that keeps the values of the columns keeps what words of signals stand for. -/
theorem Keeps.wordsAre {s t : Layout} (h : s.Keeps t) {ws : List SignalWord} {xs : List UInt32}
    (hw : s.WordsAre ws xs) : t.WordsAre ws xs := hw.imp fun _ _ hx ↦ h.wordIs hx

/-- Two things side by side stand for two values side by side. -/
def Both {α β γ δ : Type} (p : Layout → α → γ → Prop) (q : Layout → β → δ → Prop) (s : Layout)
    (a : α × β) (v : γ × δ) : Prop := p s a.1 v.1 ∧ q s a.2 v.2

/-- A layout that keeps the values of the columns keeps what two things side by side stand for. -/
theorem Both.keeps {α β γ δ : Type} {p : Layout → α → γ → Prop} {q : Layout → β → δ → Prop}
    (hp : ∀ {s t : Layout}, s.Keeps t → ∀ {a v}, p s a v → p t a v)
    (hq : ∀ {s t : Layout}, s.Keeps t → ∀ {b w}, q s b w → q t b w) {s t : Layout}
    (h : s.Keeps t) {a : α × β} {v : γ × δ} (hb : Both p q s a v) : Both p q t a v :=
  hb.imp (hp h) (hq h)

/-- What two lists stand for, their pairs stand for. -/
theorem Both.zip {α β γ δ : Type} {p : Layout → α → γ → Prop} {q : Layout → β → δ → Prop}
    {s : Layout} {as : List α} {bs : List β} {vs : List γ} {ws : List δ}
    (h : List.Forall₂ (p s) as vs) (h' : List.Forall₂ (q s) bs ws) :
    List.Forall₂ (Both p q s) (as.zip bs) (vs.zip ws) := by
  induction h generalizing bs ws with
  | nil => exact .nil
  | cons ha _ ih =>
    cases h' with
    | nil => exact .nil
    | cons hb hbs => exact .cons ⟨ha, hb⟩ (ih hbs)

/-- The number that a word of signals spells is that of the word that it carries. -/
theorem WordIs.toNat_eq {w : SignalWord} {x : UInt32} (h : s.WordIs w x) : w.toNat = x.toNat := by
  rw [SignalWord.toNat, SignalsAre.values h, Sha256.bitsToNat_bits]

end Layout

namespace SignalWord

/-- A constant word carries its constant. -/
theorem wordIs_constant (x : UInt32) : s.WordIs (constant x) x := by
  simp only [WordIs, constant, Sha256.bits, List.forall₂_map_left_iff, List.forall₂_map_right_iff,
    List.forall₂_same]
  exact fun i _ ↦ signalIs_constant _

/-- A rotated word carries the rotation. -/
theorem wordIs_rotr {w : SignalWord} {x : UInt32} (h : s.WordIs w x) {n : UInt32} {k : Nat}
    (hn : n.toNat = k) (h0 : 0 < k) (hk : k < 32) : s.WordIs (rotr k w) (Sha256.rotr x n) := by
  rw [WordIs, Sha256.bits_rotr x hn h0 hk]
  exact List.rel_append (List.forall₂_drop k h) (List.forall₂_take k h)

/-- A shifted word carries the shift. -/
theorem wordIs_shr {w : SignalWord} {x : UInt32} (h : s.WordIs w x) {n : UInt32} {k : Nat}
    (hn : n.toNat = k) (hk : k < 32) : s.WordIs (shr k w) (x >>> n) := by
  have hl : w.length = 32 := h.length_eq.trans (Sha256.length_bits x)
  rw [WordIs, Sha256.bits_shiftRight x hn hk, shr, hl, Nat.min_eq_left (Nat.le_of_lt hk)]
  refine List.rel_append (List.forall₂_drop k h) ?_
  exact List.forall₂_iff_get.2 ⟨by simp, fun i hi hi' ↦ by simpa using signalIs_constant false⟩

/-- The exclusive or of two words carries that of their values. -/
theorem xor_emits (h : l.Sound s) {a b : SignalWord} {x y : UInt32} (ha : (s.extend l).WordIs a x)
    (hb : (s.extend l).WordIs b y) :
    ∃ r t, Emits (xor a b) s l r t ∧ (s.extend t).WordIs r (x ^^^ y) := by
  simp only [WordIs, Sha256.bits_xor]
  exact mapM_emits (Both.keeps Keeps.signalIs Keeps.signalIs) Keeps.signalIs
    (fun hl hv ↦ Lower.xor_emits hl hv.1 hv.2) h (Both.zip ha hb)

/-- The exclusive or of three words carries that of their values. -/
theorem xor3_emits (h : l.Sound s) {a b c : SignalWord} {x y z : UInt32}
    (ha : (s.extend l).WordIs a x) (hb : (s.extend l).WordIs b y) (hc : (s.extend l).WordIs c z) :
    ∃ r t, Emits (xor3 a b c) s l r t ∧ (s.extend t).WordIs r (x ^^^ y ^^^ z) := by
  obtain ⟨d, t, hd, hdx⟩ := xor_emits h ha hb
  obtain ⟨r, u, hu, hr⟩ := xor_emits hd.sound hdx (hd.keeps.wordIs hc)
  exact ⟨r, u, hd.bind hu, hr⟩

/-- The choice between two words carries that of their values. -/
theorem choose_emits (h : l.Sound s) {e f g : SignalWord} {x y z : UInt32}
    (he : (s.extend l).WordIs e x) (hf : (s.extend l).WordIs f y) (hg : (s.extend l).WordIs g z) :
    ∃ r t, Emits (choose e f g) s l r t ∧ (s.extend t).WordIs r (Sha256.choose x y z) := by
  simp only [WordIs, Sha256.bits_choose]
  exact mapM_emits
    (Both.keeps Keeps.signalIs (Both.keeps Keeps.signalIs Keeps.signalIs)) Keeps.signalIs
    (fun hl hv ↦ mux_emits hl hv.1 hv.2.1 hv.2.2) h (Both.zip he (Both.zip hf hg))

/-- The majority of three words carries that of their values. -/
theorem majority_emits (h : l.Sound s) {a b c : SignalWord} {x y z : UInt32}
    (ha : (s.extend l).WordIs a x) (hb : (s.extend l).WordIs b y) (hc : (s.extend l).WordIs c z) :
    ∃ r t, Emits (majority a b c) s l r t ∧ (s.extend t).WordIs r (Sha256.majority x y z) := by
  simp only [WordIs, Sha256.bits_majority]
  exact mapM_emits
    (Both.keeps Keeps.signalIs (Both.keeps Keeps.signalIs Keeps.signalIs)) Keeps.signalIs
    (fun hl hv ↦ Lower.majority_emits hl hv.1 hv.2.1 hv.2.2) h (Both.zip ha (Both.zip hb hc))

/-- The numbers of words add up to the numbers that they carry. -/
private theorem foldl_toNat {ws : List SignalWord} {xs : List UInt32} (h : s.WordsAre ws xs)
    (n : Nat) : ws.foldl (fun n w ↦ n + w.toNat) n = n + (xs.map UInt32.toNat).sum := by
  induction h generalizing n with
  | nil => rfl
  | cons hw _ ih =>
    rw [List.foldl_cons, ih, hw.toNat_eq, List.map_cons, List.sum_cons, Nat.add_assoc]

/-- The word of a sum of numbers is the sum of the words. -/
private theorem ofNat_sum (xs : List UInt32) : UInt32.ofNat (xs.map UInt32.toNat).sum = xs.sum := by
  induction xs with
  | nil => rfl
  | cons x xs ih => rw [List.map_cons, List.sum_cons, List.sum_cons, UInt32.ofNat_add, ih,
      UInt32.ofNat_toNat]

/-- A sum of words has as many bits more than a word as its number of words has digits. -/
private theorem sum_lt (xs : List UInt32) :
    (xs.map UInt32.toNat).sum < 2 ^ (32 + xs.length.log2 + 1) := by
  have hb : (xs.map UInt32.toNat).sum ≤ xs.length * 2 ^ 32 := by
    induction xs with
    | nil => exact Nat.le_refl 0
    | cons x xs ih =>
      have hx : x.toNat < 2 ^ 32 := x.toNat_lt
      rw [List.map_cons, List.sum_cons, List.length_cons, Nat.succ_mul]
      omega
  refine Nat.lt_of_le_of_lt hb ?_
  rw [Nat.add_assoc, Nat.pow_add, Nat.mul_comm]
  exact Nat.mul_lt_mul_of_pos_left Nat.lt_log2_self (by decide)

/-- The weighted bits of words have the sum of their numbers as value. -/
private theorem eval?_flatMap_sum {ws : List SignalWord} {xs : List UInt32} (h : s.WordsAre ws xs) :
    s.eval? (ws.flatMap fun w ↦ Bit.sum (w.map Signal.bit))
      = some (((xs.map UInt32.toNat).sum : ℕ) : Fr) := by
  induction h with
  | nil => rfl
  | @cons w x ws xs hw _ ih =>
    rw [List.flatMap_cons, eval?_append (SignalsAre.bits hw).eval?_sum ih, Sha256.bitsToNat_bits,
      List.map_cons, List.sum_cons, Nat.cast_add]

/-- The sum of words carries the sum of their values. -/
theorem sum_emits (h : l.Sound s) {ws : List SignalWord} {xs : List UInt32}
    (hw : (s.extend l).WordsAre ws xs) :
    ∃ r t, Emits (sum ws) s l r t ∧ (s.extend t).WordIs r xs.sum := by
  have ht : ws.foldl (fun n w ↦ n + w.toNat) 0 = (xs.map UInt32.toNat).sum := by
    rw [foldl_toNat hw, Nat.zero_add]
  simp only [sum, ht, hw.length_eq]
  split
  · exact ⟨_, l, .pure h _, ofNat_sum xs ▸ wordIs_constant _⟩
  · -- The bits of the whole sum are new columns, each of them zero or one.
    obtain ⟨bits, t, hb, hbits⟩ := mapM_emits
      (f := fun i ↦ do
        let r ← newBit ((xs.map UInt32.toNat).sum.testBit i)
        row ((Form.constant 1).sub r.bit.form) r.bit.form []
        pure r)
      (g := (xs.map UInt32.toNat).sum.testBit) (p := fun _ i j ↦ i = j)
      (q := SignalIs) (fun _ _ _ ↦ id) Keeps.signalIs
      (fun {l i j} hl hij ↦ by
        obtain ⟨r, t, hr, hrv⟩ := newBit_emits hl ((xs.map UInt32.toNat).sum.testBit i)
        have hz : (1 - scalarOfBool ((xs.map UInt32.toNat).sum.testBit i))
            * scalarOfBool ((xs.map UInt32.toNat).sum.testBit i) = 0 := by
          cases (xs.map UInt32.toNat).sum.testBit i <;> decide
        obtain ⟨u, hu⟩ := row_emits hr.sound (eval?_sub (eval?_constant 1) hrv.bit) hrv.bit
          (c := []) rfl hz
        exact ⟨r, u, hr.bind (hu.bind (.pure hu.sound r)), hij ▸ hu.keeps.signalIs hrv⟩)
      h (List.forall₂_same.2 fun i (_ : i ∈ List.range (32 + xs.length.log2 + 1)) ↦ rfl)
    have hval := (SignalsAre.bits hbits).eval?_sum
    rw [← Octet.bitsOfNat_eq_map, Octet.bitsToNat_bitsOfNat, Nat.mod_eq_of_lt (sum_lt xs)] at hval
    obtain ⟨u, hu⟩ := row_eq_emits hb.sound (eval?_flatMap_sum (hb.keeps.wordsAre hw)) hval
    refine ⟨bits.take 32, u, hb.bind (hu.bind (.pure hu.sound _)), ?_⟩
    have htake := List.forall₂_take 32 (hu.keeps.signalsAre hbits)
    rw [← List.map_take, List.take_range, Nat.min_eq_left (by omega), ← Sha256.bits_ofNat,
      ofNat_sum] at htake
    exact htake

end SignalWord

end TreeProver.Circuit
