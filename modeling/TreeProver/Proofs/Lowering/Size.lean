import Mathlib
import TreeProver.Circuit.Lowering

/-!
# The size of a system

How many rows a digest takes depends on the number of its blocks. The bounds here follow the
lowering action by action: each of them adds at most so many rows and no more columns than rows, and
the words that it gives have at most 32 bits.
-/

namespace TreeProver.Circuit

variable {α β : Type}

namespace Lower

/-- The action adds at most `n` rows and no more columns than rows, and what it gives satisfies
`P`. -/
def Within (n : Nat) (P : α → Prop) (act : Lower α) : Prop :=
  ∀ l : Lowering, P (act.run l).1 ∧ (act.run l).2.rows.size ≤ l.rows.size + n ∧
    (act.run l).2.witnesses + l.rows.size ≤ l.witnesses + (act.run l).2.rows.size

/-- Doing nothing adds no rows. -/
theorem Within.pure {P : α → Prop} {a : α} (h : P a) : Within 0 P (Pure.pure a) :=
  fun _ ↦ ⟨h, Nat.le_refl _, Nat.le_refl _⟩

/-- A sequence adds at most what its parts add. -/
theorem Within.bind {m n : Nat} {P : α → Prop} {Q : β → Prop} {act : Lower α} {f : α → Lower β}
    (h : Within m P act) (hf : ∀ a, P a → Within n Q (f a)) : Within (m + n) Q (act >>= f) := by
  intro l
  obtain ⟨ha, hm, hcolumns⟩ := h l
  obtain ⟨hb, hn, hcolumns'⟩ := hf _ ha (act.run l).2
  refine ⟨hb, Nat.le_trans hn (by omega), ?_⟩
  have hbind : (act >>= f).run l = (f (act.run l).1).run (act.run l).2 := rfl
  rw [hbind]
  omega

/-- A bound may be larger, and say less about what comes out. -/
theorem Within.mono {m n : Nat} {P Q : α → Prop} {act : Lower α} (h : Within m P act)
    (hn : m ≤ n) (hq : ∀ a, P a → Q a) : Within n Q act := by
  intro l
  obtain ⟨ha, hm, hcolumns⟩ := h l
  exact ⟨hq _ ha, by omega, hcolumns⟩

/-- An action for every element of a list adds at most so many rows for each of them. -/
theorem mapM_within {n : Nat} {P : β → Prop} {f : α → Lower β} {xs : List α}
    (hf : ∀ x ∈ xs, Within n P (f x)) :
    Within (xs.length * n) (fun ys ↦ ys.length = xs.length ∧ ∀ y ∈ ys, P y) (xs.mapM f) := by
  induction xs with
  | nil => exact (Within.pure ⟨rfl, by simp⟩).mono (by simp) fun _ h ↦ h
  | cons x xs ih =>
    rw [List.mapM_cons]
    refine ((hf x (by simp)).bind fun y hy ↦ (ih fun x hx ↦ hf x (by simp [hx])).bind fun ys hys ↦
      Within.pure (P := fun zs : List β ↦ zs.length = xs.length + 1 ∧ ∀ z ∈ zs, P z) ?_).mono ?_
        fun _ h ↦ h
    · exact ⟨by simp [hys.1], List.forall_mem_cons.2 ⟨hy, hys.2⟩⟩
    · rw [List.length_cons, Nat.succ_mul]
      omega

/-- A row is one row. -/
theorem row_within (a b c : Form) : Within 1 (fun _ ↦ True) (row a b c) := by
  intro l
  have hrows : ((row a b c).run l).2.rows.size = l.rows.size + 1 := Array.size_push _
  have hcolumns : ((row a b c).run l).2.witnesses = l.witnesses := rfl
  exact ⟨trivial, by omega, by omega⟩

/-- A new bit under a row, as operations on bits end. -/
private theorem newBit_row_within (v : Bool) (a b c : Signal → Form) :
    Within 1 (fun _ ↦ True) (do
      let x ← newBit v
      row (a x) (b x) (c x)
      Pure.pure x) := by
  intro l
  let x : Signal := ⟨.wire (.witness l.witnesses) false, v⟩
  have hrun : StateT.run (m := Id) (do
      let x ← newBit v
      row (a x) (b x) (c x)
      Pure.pure x) l = (x, ⟨l.witnesses + 1, l.values.push (scalarOfBool v),
        l.rows.push (a x, b x, c x)⟩) := rfl
  rw [hrun]
  simp only [Array.size_push]
  exact ⟨trivial, Nat.le_refl _, by omega⟩

/-- Exclusive or adds at most one row. -/
theorem xor_within (a b : Signal) : Within 1 (fun _ ↦ True) (xor a b) := by
  have hpure (x : Signal) : Within 1 (fun _ ↦ True) (Pure.pure x : Lower Signal) :=
    (Within.pure trivial).mono (by decide) fun _ h ↦ h
  rw [xor]
  split
  · exact hpure _
  · exact hpure _
  · exact newBit_row_within _ _ _ _

/-- A choice adds at most one row. -/
theorem mux_within (which yes no : Signal) : Within 1 (fun _ ↦ True) (mux which yes no) := by
  rw [mux]
  split
  · exact (Within.pure trivial).mono (by decide) fun _ h ↦ h
  · exact newBit_row_within _ _ _ _

/-- A majority adds at most two rows. -/
theorem majority_within (a b c : Signal) : Within 2 (fun _ ↦ True) (majority a b c) :=
  (xor_within a b).bind fun _ _ ↦ mux_within _ _ _

end Lower

namespace SignalWord

open Lower

/-- A word has at most 32 bits. -/
def Fits (w : SignalWord) : Prop := w.length ≤ 32

/-- Rotation keeps the number of bits. -/
theorem Fits.rotr {w : SignalWord} (h : w.Fits) (k : Nat) : (rotr k w).Fits := by
  rw [Fits] at h ⊢
  simp only [SignalWord.rotr, List.length_append, List.length_drop, List.length_take]
  omega

/-- A constant word has 32 bits. -/
theorem fits_constant (x : UInt32) : (constant x).Fits := by simp [Fits, constant]

/-- A bitwise operation of at most `n` rows a bit, on as many places as a word has. -/
private theorem bitwise_within {α : Type} {n : Nat} {f : α → Lower Signal} {xs : List α}
    (hl : xs.length ≤ 32) (hf : ∀ x, Within n (fun _ ↦ True) (f x)) :
    Within (32 * n) Fits (xs.mapM f) :=
  (mapM_within fun x _ ↦ hf x).mono (Nat.mul_le_mul_right n hl) fun ys hy ↦ by
    rw [Fits, hy.1]
    exact hl

/-- Exclusive or of words adds at most 32 rows. -/
theorem xor_within {a : SignalWord} (ha : a.Fits) (b : SignalWord) : Within 32 Fits (xor a b) :=
  bitwise_within (by rw [List.length_zip]; exact Nat.le_trans (Nat.min_le_left _ _) ha)
    fun _ ↦ Lower.xor_within _ _

/-- Exclusive or of three words adds at most 64 rows. -/
theorem xor3_within {a : SignalWord} (ha : a.Fits) (b c : SignalWord) :
    Within 64 Fits (xor3 a b c) :=
  (xor_within ha b).bind fun _ h ↦ xor_within h c

/-- A choice between words adds at most 32 rows. -/
theorem choose_within {e : SignalWord} (he : e.Fits) (f g : SignalWord) :
    Within 32 Fits (choose e f g) :=
  bitwise_within (by rw [List.length_zip]; exact Nat.le_trans (Nat.min_le_left _ _) he)
    fun _ ↦ mux_within _ _ _

/-- A majority of words adds at most 64 rows. -/
theorem majority_within {a : SignalWord} (ha : a.Fits) (b c : SignalWord) :
    Within 64 Fits (majority a b c) :=
  bitwise_within (by rw [List.length_zip]; exact Nat.le_trans (Nat.min_le_left _ _) ha)
    fun _ ↦ Lower.majority_within _ _ _

/-- A sum of fewer than eight words adds at most 36 rows: one for every bit of the whole sum and one
more. -/
theorem sum_within {ws : List SignalWord} (hl : ws.length < 8) : Within 36 Fits (sum ws) := by
  have hlog : ws.length.log2 ≤ 2 := by
    by_cases h : ws.length = 0
    · rw [h]
      decide
    · exact Nat.le_of_lt_succ ((Nat.log2_lt h).2 hl)
  have hbit (b : Bool) : Within 1 (fun _ ↦ True) (do
      let s ← Lower.newBit b
      Lower.row ((Form.constant 1).sub s.bit.form) s.bit.form []
      pure s) := newBit_row_within _ _ _ _
  rw [sum]
  split
  · exact (Within.pure (fits_constant _)).mono (by omega) fun _ h ↦ h
  · refine ((mapM_within fun i _ ↦ hbit _).bind fun bits _ ↦ (row_within _ _ _).bind fun _ _ ↦
      Within.pure (P := Fits) ?_).mono ?_ fun _ h ↦ h
    · exact List.length_take_le 32 bits
    · rw [List.length_range]
      omega

end SignalWord

namespace Lower

open SignalWord

/-- Words of at most 32 bits. -/
def AllFit (ws : List SignalWord) : Prop := ∀ w ∈ ws, w.Fits

/-- A word of a list, or the empty word, has at most 32 bits. -/
theorem AllFit.getD {ws : List SignalWord} (h : AllFit ws) (i : Nat) : (ws.getD i []).Fits := by
  rw [List.getD_eq_getElem?_getD]
  cases hw : ws[i]? with
  | none => exact Nat.zero_le 32
  | some w => exact h w (List.mem_of_getElem? hw)

/-- The next schedule word takes at most 164 rows. -/
theorem nextWord_within {window : List SignalWord} (h : AllFit window) :
    Within 164 Fits (nextWord window) := by
  rw [nextWord]
  exact (xor3_within ((h.getD 1).rotr 7) _ _).bind (n := 100) fun _ _ ↦
    (xor3_within ((h.getD 14).rotr 17) _ _).bind (n := 36) fun _ _ ↦ sum_within (by simp)

/-- A schedule takes at most 164 rows a word. -/
theorem schedule_within (count : Nat) {window : List SignalWord} (h : AllFit window) :
    Within (count * 164) AllFit (schedule count window) := by
  induction count generalizing window with
  | zero => exact (Within.pure (by simp [AllFit])).mono (by simp) fun _ h ↦ h
  | succ count ih =>
    have hhead : (window.headD []).Fits := by
      cases window with
      | nil => exact Nat.zero_le 32
      | cons w _ => exact h w (by simp)
    have hdrop : AllFit (window.drop 1) := fun w hw ↦ h w (List.mem_of_mem_drop hw)
    have hrest {following : List SignalWord} (hf : AllFit following) :
        Within (count * 164) AllFit
          (do pure (window.headD [] :: (← schedule count following))) :=
      (ih hf).bind fun ws hws ↦ Within.pure (List.forall_mem_cons.2 ⟨hhead, hws⟩)
    rw [schedule, Nat.succ_mul]
    split
    · exact (hrest hdrop).mono (by omega) fun _ h ↦ h
    · refine ((nextWord_within h).bind fun w hw ↦ hrest ?_).mono (by omega) fun _ h ↦ h
      exact List.forall_mem_append.2 ⟨hdrop, List.forall_mem_singleton.2 hw⟩

/-- A round takes at most 296 rows. -/
theorem round_within {s : List SignalWord} (hs : AllFit s) (k : UInt32) (w : SignalWord) :
    Within 296 AllFit (round s k w) := by
  have hself : Within 296 AllFit (pure s) := (Within.pure hs).mono (by omega) fun _ h ↦ h
  match s with
  | [a, b, c, d, e, f, g, h] =>
    simp only [AllFit, List.forall_mem_cons] at hs
    obtain ⟨ha, hb, hc, hd, he, hf, hg, -⟩ := hs
    rw [round]
    refine (xor3_within (he.rotr 6) _ _).bind (n := 232) fun sigma1 _ ↦ ?_
    refine (choose_within he f g).bind (n := 200) fun chosen _ ↦ ?_
    refine (xor3_within (ha.rotr 2) _ _).bind (n := 136) fun sigma0 _ ↦ ?_
    refine (SignalWord.majority_within ha b c).bind (n := 72) fun most _ ↦ ?_
    refine (sum_within (by simp)).bind (n := 36) fun e' he' ↦ ?_
    refine (sum_within (by simp)).bind (n := 0) fun a' ha' ↦ .pure ?_
    simp [AllFit, ha', ha, hb, hc, he', he, hf, hg]
  | [] | [_] | [_, _] | [_, _, _] | [_, _, _, _] | [_, _, _, _, _] | [_, _, _, _, _, _]
  | [_, _, _, _, _, _, _] | _ :: _ :: _ :: _ :: _ :: _ :: _ :: _ :: _ :: _ => exact hself

/-- A state: at most eight words. -/
structure IsState (s : List SignalWord) : Prop where
  fit : AllFit s
  length : s.length ≤ 8

/-- The number of rows that a block takes at most. -/
def rowsPerBlock : Nat := 64 * 164 + (64 * 296 + 8 * 36)

/-- A block takes at most so many rows. -/
theorem compress_within {s block : List SignalWord} (hs : IsState s) (hb : AllFit block) :
    Within rowsPerBlock IsState (compress s block) := by
  -- The rounds one after the other, each with its constant.
  have hrounds : ∀ (ps : List (UInt32 × SignalWord)) {s : List SignalWord}, AllFit s →
      Within (ps.length * 296) AllFit (ps.foldlM (fun t kw ↦ round t kw.1 kw.2) s) := by
    intro ps
    induction ps with
    | nil => exact fun hs ↦ (Within.pure hs).mono (by simp) fun _ h ↦ h
    | cons p ps ih =>
      intro s hs
      rw [List.foldlM_cons, List.length_cons, Nat.succ_mul]
      exact ((round_within hs p.1 p.2).bind fun t ht ↦ ih ht).mono (by omega) fun _ h ↦ h
  refine (schedule_within 64 hb).bind (n := 64 * 296 + 8 * 36) fun ws _ ↦ ?_
  have hlen : (Sha256.roundConstants.zip ws).length ≤ 64 := by
    rw [List.length_zip]
    exact Nat.min_le_left _ _
  refine ((hrounds _ hs.fit).mono (Nat.mul_le_mul_right 296 hlen) fun _ h ↦ h).bind
    (n := 8 * 36) fun t _ ↦ ?_
  have hzip : (s.zip t).length ≤ 8 := by
    rw [List.length_zip]
    exact Nat.le_trans (Nat.min_le_left _ _) hs.length
  refine (mapM_within fun p _ ↦ sum_within (by simp)).mono (Nat.mul_le_mul_right 36 hzip) ?_
  rintro ys ⟨hl, hy⟩
  exact ⟨hy, hl ▸ hzip⟩

/-- A message takes at most so many rows for each of its blocks. -/
theorem absorb_within (blocks : Nat) {s ws : List SignalWord} (hs : IsState s) (hw : AllFit ws) :
    Within (blocks * rowsPerBlock) IsState (absorb blocks s ws) := by
  induction blocks generalizing s ws with
  | zero => exact (Within.pure hs).mono (by simp) fun _ h ↦ h
  | succ blocks ih =>
    rw [absorb, Nat.succ_mul]
    exact ((compress_within hs fun w h ↦ hw w (List.mem_of_mem_take h)).bind fun t ht ↦
      ih ht fun w h ↦ hw w (List.mem_of_mem_drop h)).mono (by omega) fun _ h ↦ h

/-- The starting state is a state. -/
theorem isState_initial : IsState initial where
  fit w hw := by
    obtain ⟨x, -, rfl⟩ := List.mem_map.1 hw
    exact fits_constant x
  length := by simp [initial]

/-- Four bytes make a word of 32 bits. -/
theorem allFit_words (os : List (Octet Signal)) : AllFit (words os) := by
  induction os using words.induct with
  | case1 a b c d rest ih =>
    rw [words]
    exact List.forall_mem_cons.2 ⟨Nat.le_refl 32, ih⟩
  | case2 os h =>
    rw [words]
    · simp [AllFit]
    · exact h

/-- The number of rows that a gate takes at most. -/
def rowsOf : Gate → Nat
  | .product _ _ _ => 1
  | .digest message result =>
    Sha256.blockCount message.length * rowsPerBlock + 8 * result.length

/-- A gate takes at most so many rows. -/
theorem gate_within (s : Layout) (g : Gate) : Within (rowsOf g) (fun _ ↦ True) (gate s g) := by
  have hties (ps : List (Signal × Bit)) : Within ps.length (fun _ ↦ True)
      (ps.forM fun p ↦ row (p.1.bit.form.sub p.2.form) (Form.constant 1) []) := by
    induction ps with
    | nil => exact .pure trivial
    | cons p ps ih =>
      exact ((row_within _ _ _).bind fun _ _ ↦ ih).mono (by simp; omega) fun _ h ↦ h
  cases g with
  | product a b c => exact row_within a b c
  | digest message result =>
    refine (absorb_within _ isState_initial (allFit_words _)).bind fun state _ ↦
      (hties _).mono ?_ fun _ h ↦ h
    rw [List.length_zip]
    refine Nat.le_trans (Nat.min_le_right _ _) (Nat.le_of_eq ?_)
    induction result with
    | nil => rfl
    | cons b result ih =>
      rw [List.flatMap_cons, List.length_append, ih, List.length_cons, Nat.mul_succ, Nat.add_comm]
      rfl

end Lower

/-- A system has at most as many rows as its gates take, and no more columns behind those of the
layout than rows. -/
theorem Layout.size_lower_le (s : Layout) :
    s.lower.rows.size ≤ (s.gates.toList.map Lower.rowsOf).sum ∧
      s.lower.witnesses ≤ s.witnesses + s.lower.rows.size := by
  have h (gs : List Gate) : Lower.Within (gs.map Lower.rowsOf).sum (fun _ ↦ True)
      (gs.forM (Lower.gate s)) := by
    induction gs with
    | nil => exact .pure trivial
    | cons g gs ih =>
      rw [List.map_cons, List.sum_cons]
      exact (Lower.gate_within s g).bind fun _ _ ↦ ih
  obtain ⟨-, hrows, hcolumns⟩ := h s.gates.toList ⟨s.witnesses, #[], #[]⟩
  rw [Array.size_empty, Nat.zero_add] at hrows
  exact ⟨hrows, hcolumns⟩

end TreeProver.Circuit
