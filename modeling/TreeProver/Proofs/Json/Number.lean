import TreeProver.Proofs.Json.RoundTrip

/-!
# Reading back whole numbers

A whole number below `2 ^ 64` is written without zeros in front and read digit by digit, and no part
of it is past the capacity of the significand. What ends a value is no digit and continues no
number, so a written number is read back as it was.
-/

namespace TreeProver.Json

namespace Number

/-- A decimal digit is read back. -/
theorem digit?_digitChar {d : Nat} (h : d < 10) : digit? d.digitChar = some d := by
  have hall : ∀ d : Fin 10, digit? d.val.digitChar = some d.val := by decide
  exact hall ⟨d, h⟩

/-- A digit that still fits is read onto the digits before it. -/
theorem pushDigits_cons {significand d : Nat} (hd : d < 10)
    (hfits : 10 * significand + d < UInt64.size) (count : Nat) (rest : List Char) :
    pushDigits significand count (d.digitChar :: rest)
      = pushDigits (10 * significand + d) (count + 1) rest := by
  rw [pushDigits, digit?_digitChar hd]
  simp only [pushDigit?, if_pos hfits]

/-- The digits of a number of 64 bits are read up to the number. -/
theorem pushDigits_toDigits {n : Nat} (hn : n < UInt64.size) (count : Nat) (rest : List Char) :
    pushDigits 0 count (Nat.toDigits 10 n ++ rest)
      = pushDigits n (count + (Nat.toDigits 10 n).length) rest := by
  induction n using Nat.strongRecOn generalizing rest with
  | ind n ih =>
    rw [Nat.toDigits_eq_if (by decide)]
    split
    · next h =>
      rw [List.singleton_append, pushDigits_cons h (by omega), Nat.mul_zero, Nat.zero_add]
      rfl
    · next h =>
      -- The last digit is read onto what the digits in front of it have been read up to.
      have hlast : 10 * (n / 10) + n % 10 = n := Nat.div_add_mod n 10
      rw [List.append_assoc, ih (n / 10) (by omega) (by omega), List.singleton_append,
        pushDigits_cons (by omega) (by omega), hlast, List.length_append, Nat.add_assoc]
      rfl

/-- What ends a value is no digit. -/
theorem digit?_of_endsValue {c : Char} {cs : List Char} (h : EndsValue (c :: cs)) :
    digit? c = none := by
  have hend := h c cs rfl
  rw [isBlank, decide_eq_true_eq] at hend
  rcases hend with (rfl | rfl | rfl | rfl) | rfl
  all_goals decide

/-- Digits are read up to the end of a value. -/
theorem pushDigits_of_endsValue {rest : List Char} (h : EndsValue rest) (significand count : Nat) :
    pushDigits significand count rest = (significand, count, rest) := by
  cases rest with
  | nil => rfl
  | cons c cs =>
    rw [pushDigits, digit?_of_endsValue h]

/-- A number ends where a value does. -/
theorem readTail?_of_endsValue {rest : List Char} (h : EndsValue rest) (significand : Nat) :
    readTail? false significand rest = some (.natural significand, rest) := by
  cases rest with
  | nil => rfl
  | cons c cs =>
    have hend := h c cs rfl
    rw [isBlank, decide_eq_true_eq] at hend
    rcases hend with (rfl | rfl | rfl | rfl) | rfl
    all_goals rfl

/-- The digits of a number other than zero start with another digit than zero. -/
theorem exists_toDigits_eq {n : Nat} (hn : n ≠ 0) :
    ∃ d, 0 < d ∧ d < 10 ∧ ∃ cs, Nat.toDigits 10 n = d.digitChar :: cs := by
  induction n using Nat.strongRecOn with
  | ind n ih =>
    rw [Nat.toDigits_eq_if (by decide)]
    split
    · next h => exact ⟨n, by omega, h, [], rfl⟩
    · next h =>
      obtain ⟨d, hpos, hd, cs, hcs⟩ := ih (n / 10) (by omega) (by omega)
      rw [hcs]
      exact ⟨d, hpos, hd, _, rfl⟩

/-- A written number of 64 bits is read back. -/
theorem read?_toDigits {n : Nat} (hn : n < UInt64.size) {rest : List Char} (h : EndsValue rest) :
    read? (Nat.toDigits 10 n ++ rest) = some (.natural n, rest) := by
  by_cases hz : n = 0
  · subst hz
    cases rest with
    | nil => rfl
    | cons c cs =>
      have hdigit : isDigit c = false := by rw [isDigit, digit?_of_endsValue h]; rfl
      show readUnsigned? false ('0' :: c :: cs) = _
      simp only [readUnsigned?, hdigit, Bool.false_eq_true, ↓reduceIte, readTail?_of_endsValue h]
  · have hpush := pushDigits_toDigits hn 0 rest
    rw [pushDigits_of_endsValue h] at hpush
    have hextra : rest.takeWhile isDigit = [] := by
      cases rest with
      | nil => rfl
      | cons c cs => rw [List.takeWhile_cons, isDigit, digit?_of_endsValue h]; rfl
    obtain ⟨d, hpos, hd, cs, hcs⟩ := exists_toDigits_eq hz
    rw [hcs, List.cons_append] at hpush ⊢
    have hdigit : isDigit d.digitChar = true := by rw [isDigit, digit?_digitChar hd]; rfl
    have hchar : d.digitChar ≠ '-' ∧ d.digitChar ≠ '0' := by
      have hall : ∀ d : Fin 10, 0 < d.val → d.val.digitChar ≠ '-' ∧ d.val.digitChar ≠ '0' := by
        decide
      exact hall ⟨d, hd⟩ hpos
    rw [read?]
    · rw [readUnsigned?]
      · simp only [hdigit, ↓reduceIte, hpush, hextra, List.isEmpty_nil, readTail?_of_endsValue h]
      · exact hchar.2
    · exact fun _ he ↦ hchar.1 (List.cons.inj he).1

end Number

/-- A number of 64 bits is read back from a JSON text. -/
theorem reads_uint64 (n : UInt64) : Reads uint64 (.number n.toNat) n := by
  intro blanks rest depth hb he
  obtain ⟨c, cs, hw, hblank, -⟩ := exists_write_eq (.number n.toNat) depth
  have hread := Number.read?_toDigits n.toNat_lt he
  have hquote : c ≠ '"' := by
    rintro rfl
    have hc : '"' ∈ Nat.toDigits 10 n.toNat := by
      rw [write] at hw
      rw [hw]
      exact List.mem_cons_self
    exact absurd (Nat.isDigit_of_mem_toDigits (by decide) (by decide) hc) (by decide)
  rw [write] at hw
  rw [hw, List.cons_append] at hread
  rw [write, hw, uint64, List.cons_append, skipBlanks_append hb hblank]
  split
  · next h => exact absurd (List.cons.inj h).1 hquote
  · simp only [hread, UInt64.ofNat_toNat]

end TreeProver.Json
