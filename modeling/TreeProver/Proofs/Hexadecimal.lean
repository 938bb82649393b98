import Mathlib.Data.List.Forall2
import Mathlib.Data.Nat.Digits.Lemmas
import Mathlib.Tactic.Ring
import TreeProver.Error
import TreeProver.Proofs.Binary.Digits
import TreeProver.Word.Hex

/-!
# Texts of hexadecimal digits

A text of digits, which may be of either case, spells a number in base sixteen. Of equally many
digits, the same number is spelled by the same ones. What is read byte by byte is looked at in its
UTF-8 form, where a character that is not ASCII is more than one byte; the first of them is no
digit, so that the bytes of a text are digits exactly when its characters are. Pairs of digits are
bytes, and what is written for bytes and for numbers are digits that spell them.
-/

namespace TreeProver

namespace Hex

variable {c : Char} {cs cs' : List Char} {ds : List Nat} {d m n : Nat}

/-- A character is the digit of a number that is written. -/
def IsLower (c : Char) (d : Nat) : Prop := digits[d]? = some c

/-- A character is a digit if its lower-case form is one that is written. -/
def IsDigit (c : Char) (d : Nat) : Prop := IsLower c.toLower d

instance : Decidable (IsLower c d) := inferInstanceAs (Decidable (digits[d]? = some c))

instance : Decidable (IsDigit c d) := inferInstanceAs (Decidable (IsLower c.toLower d))

/-- Digits, the most significant one first, spell a number. -/
def Spells (cs : List Char) (n : Nat) : Prop :=
  ∃ ds, List.Forall₂ IsDigit cs ds ∧ n = Nat.ofDigits 16 ds.reverse

/-- A text without the mark in front, if it has one. -/
def unmarked (cs : List Char) : List Char := if ['0', 'x'] <+: cs then cs.drop 2 else cs

/-- The mark that is dropped is the one in front. -/
theorem dropMark_eq (cs : List Char) : dropMark cs = unmarked cs := by
  unfold dropMark unmarked
  split
  · next rest => exact (if_pos ⟨rest, rfl⟩).symm
  · next hmark =>
    refine (if_neg ?_).symm
    rintro ⟨rest, rfl⟩
    exact hmark rest rfl

/-- A number has a single digit that is written. -/
theorem leftUnique_isLower : Relator.LeftUnique IsLower :=
  fun _ _ _ h h' ↦ Option.some.inj (h.symm.trans h')

/-- A digit that is written is that of a single number. -/
theorem rightUnique_isLower : Relator.RightUnique IsLower := by
  intro c d d' h h'
  have hnodup : digits.Nodup := by decide
  exact (List.getElem?_inj (List.getElem?_eq_some_iff.1 h).1 hnodup).1 (h.trans h'.symm)

/-- There are sixteen digits. -/
theorem IsDigit.lt (h : IsDigit c d) : d < 16 := (List.getElem?_eq_some_iff.1 h).1

/-- The numbers of digits are below sixteen. -/
theorem lt_of_forall₂ (h : List.Forall₂ IsDigit cs ds) : ∀ d ∈ ds, d < 16 := by
  induction h with
  | nil => exact nofun
  | cons hd _ ih => exact List.forall_mem_cons.2 ⟨hd.lt, ih⟩

/-- A character that is not ASCII is no digit. -/
theorem not_isDigit_of_le (h : 128 ≤ c.toNat) : ¬ IsDigit c d := by
  intro hd
  have hlower : c.toLower = c := by
    refine dif_neg fun hupper ↦ ?_
    have hle : c.toNat ≤ 90 := UInt32.le_iff_toNat_le.1 hupper.2
    omega
  have hascii : ∀ c ∈ digits, c.toNat < 128 := by simp [digits]
  have hc := hascii c (hlower ▸ List.mem_of_getElem? hd)
  omega

/-- A character that is not ASCII is not read as a digit. -/
theorem digit?_of_le (h : 128 ≤ c.toNat) : digit? c = none := by
  have hbelow {c' : Char} (hc' : c'.toNat < 128) : ¬ c ≤ c' := by
    intro hle
    have hle' : c.toNat ≤ c'.toNat := UInt32.le_iff_toNat_le.1 hle
    omega
  rw [digit?, if_neg fun h ↦ hbelow (by decide) h.2, if_neg fun h ↦ hbelow (by decide) h.2,
    if_neg fun h ↦ hbelow (by decide) h.2]

/-- What is read as a digit is one, and every digit is read. -/
theorem digit?_eq_some_iff : digit? c = some d ↔ IsDigit c d := by
  by_cases hc : c.toNat < 128
  · have hread : ∀ v : Fin 128, ∀ d ∈ digit? (Char.ofNat v.val), IsDigit (Char.ofNat v.val) d := by
      decide +kernel
    have hdigit : ∀ v : Fin 128, ∀ d : Fin 16, IsDigit (Char.ofNat v.val) d.val →
        digit? (Char.ofNat v.val) = some d.val := by decide +kernel
    have hcv : Char.ofNat c.toNat = c := c.ofNat_toNat
    constructor
    · intro h
      have hd := hread ⟨c.toNat, hc⟩ d
      rw [hcv] at hd
      exact hd h
    · intro h
      have hd := hdigit ⟨c.toNat, hc⟩ ⟨d, h.lt⟩
      rw [hcv] at hd
      exact hd h
  · rw [digit?_of_le (Nat.not_lt.1 hc)]
    exact iff_of_false nofun (not_isDigit_of_le (Nat.not_lt.1 hc))

/-- The digits that are written are digits, and not of upper case. -/
theorem isDigit_digit (h : d < 16) : IsDigit (digit d) d ∧ (digit d).toLower = digit d := by
  have hall : ∀ d : Fin 16, IsDigit (digit d.val) d.val ∧ (digit d.val).toLower = digit d.val := by
    decide
  exact hall ⟨d, h⟩

/-- The digits that numbers are written with are the same ones. -/
theorem digitChar_eq (h : d < 16) : d.digitChar = digit d := by
  have hall : ∀ d : Fin 16, d.val.digitChar = digit d.val := by decide
  exact hall ⟨d, h⟩

/-- A digit in front counts for as many digits as follow it. -/
theorem spells_cons_iff : Spells (c :: cs) n ↔
    ∃ d m, IsDigit c d ∧ Spells cs m ∧ n = 16 ^ cs.length * d + m := by
  constructor
  · rintro ⟨ds', h, rfl⟩
    obtain ⟨d, ds, hd, hds, rfl⟩ := List.forall₂_cons_left_iff.1 h
    refine ⟨d, _, hd, ⟨ds, hds, rfl⟩, ?_⟩
    rw [Nat.ofDigits_reverse_cons, hds.length_eq, Nat.add_comm]
  · rintro ⟨d, -, hd, ⟨ds, hds, rfl⟩, rfl⟩
    refine ⟨d :: ds, .cons hd hds, ?_⟩
    rw [Nat.ofDigits_reverse_cons, hds.length_eq, Nat.add_comm]

/-- No digits spell zero. -/
theorem spells_nil_iff : Spells [] n ↔ n = 0 := by
  constructor
  · rintro ⟨ds, h, rfl⟩
    rw [List.forall₂_nil_left_iff.1 h]
    rfl
  · rintro rfl
    exact ⟨[], .nil, rfl⟩

/-- A digit behind counts for itself. -/
theorem Spells.concat (h : Spells cs n) (hc : IsDigit c d) : Spells (cs ++ [c]) (16 * n + d) := by
  obtain ⟨ds, hds, rfl⟩ := h
  refine ⟨ds ++ [d], List.rel_append hds (.cons hc .nil), ?_⟩
  rw [List.reverse_append, List.reverse_singleton, List.singleton_append, Nat.ofDigits_cons,
    Nat.add_comm]

/-- Zeros in front do not count. -/
theorem Spells.replicate_append (h : Spells cs n) (count : Nat) :
    Spells (List.replicate count '0' ++ cs) n := by
  induction count with
  | zero => exact h
  | succ count ih =>
    rw [List.replicate_succ, List.cons_append]
    exact spells_cons_iff.2 ⟨0, n, by decide, ih, by rw [Nat.mul_zero, Nat.zero_add]⟩

/-- A text that spells a number consists of digits. -/
theorem Spells.exists_isDigit (h : Spells cs n) : ∀ c ∈ cs, ∃ d, IsDigit c d := by
  obtain ⟨ds, hds, -⟩ := h
  induction hds with
  | nil => exact nofun
  | cons hd _ ih => exact List.forall_mem_cons.2 ⟨⟨_, hd⟩, ih⟩

/-- Of equally many digits, the same number is spelled by the same ones, up to their case. -/
theorem Spells.eq_iff (h : Spells cs m) (h' : Spells cs' n) (hl : cs.length = cs'.length) :
    m = n ↔ cs.map Char.toLower = cs'.map Char.toLower := by
  obtain ⟨ds, hds, rfl⟩ := h
  obtain ⟨ds', hds', rfl⟩ := h'
  have hlower : List.Forall₂ IsLower (cs.map Char.toLower) ds := List.forall₂_map_left_iff.2 hds
  have hlower' : List.Forall₂ IsLower (cs'.map Char.toLower) ds' := List.forall₂_map_left_iff.2 hds'
  constructor
  · intro h
    have hlt : ∀ d ∈ ds.reverse, d < 16 := fun d hd ↦ lt_of_forall₂ hds d (List.mem_reverse.1 hd)
    have hlt' : ∀ d ∈ ds'.reverse, d < 16 := fun d hd ↦ lt_of_forall₂ hds' d (List.mem_reverse.1 hd)
    have hlength : ds.reverse.length = ds'.reverse.length := by
      rw [List.length_reverse, List.length_reverse, ← hds.length_eq, ← hds'.length_eq, hl]
    obtain rfl := List.reverse_injective (Nat.ofDigits_inj_of_len_eq (by decide) hlength hlt hlt' h)
    exact List.left_unique_forall₂' leftUnique_isLower hlower hlower'
  · intro h
    rw [← h] at hlower'
    rw [List.right_unique_forall₂' rightUnique_isLower hlower hlower']

/-- Digits spell a single number. -/
theorem Spells.unique (h : Spells cs m) (h' : Spells cs n) : m = n := (h.eq_iff h' rfl).2 rfl

/-! ### Bytes -/

/-- The characters that bytes stand for one by one. -/
def charsOf (bs : Bytes) : List Char := bs.map fun b ↦ Char.ofNat b.toNat

/-- A character of ASCII is a byte of its own. -/
theorem utf8EncodeChar_of_lt (h : c.toNat < 128) :
    ∃ b, String.utf8EncodeChar c = [b] ∧ Char.ofNat b.toNat = c := by
  refine ⟨UInt8.ofNat c.toNat, if_pos (Nat.le_of_lt_succ h), ?_⟩
  rw [UInt8.toNat_ofNat', Nat.mod_eq_of_lt (by omega), Char.ofNat_toNat]

/-- A character outside ASCII starts with a byte that is outside, too. -/
theorem utf8EncodeChar_of_le (h : 128 ≤ c.toNat) :
    ∃ b bs, String.utf8EncodeChar c = b :: bs ∧ 128 ≤ b.toNat := by
  have hv : ¬ c.val.toNat ≤ 127 := Nat.not_le.2 h
  unfold String.utf8EncodeChar
  dsimp only
  rw [if_neg hv]
  split
  · refine ⟨_, _, rfl, ?_⟩
    rw [UInt8.toNat_ofNat']
    omega
  · split
    · refine ⟨_, _, rfl, ?_⟩
      rw [UInt8.toNat_ofNat']
      omega
    · refine ⟨_, _, rfl, ?_⟩
      rw [UInt8.toNat_ofNat']
      omega

/-- A byte outside ASCII stands for no digit. -/
theorem not_isDigit_byte {b : UInt8} (h : 128 ≤ b.toNat) : ¬ IsDigit (Char.ofNat b.toNat) d := by
  have hb : (Char.ofNat b.toNat).toNat = b.toNat := by
    rw [Char.ofNat, dif_pos (Or.inl (Nat.lt_trans b.toNat_lt (by decide)))]
    rfl
  exact not_isDigit_of_le (hb.symm ▸ h)

/-- The bytes of a text are digits exactly when its characters are. -/
theorem forall₂_utf8_iff :
    List.Forall₂ IsDigit (charsOf (utf8 cs)) ds ↔ List.Forall₂ IsDigit cs ds := by
  induction cs generalizing ds with
  | nil => exact Iff.rfl
  | cons c cs ih =>
    have hutf8 : utf8 (c :: cs) = String.utf8EncodeChar c ++ utf8 cs := rfl
    rw [charsOf] at ih
    by_cases hc : c.toNat < 128
    · obtain ⟨b, henc, hb⟩ := utf8EncodeChar_of_lt hc
      rw [hutf8, henc, List.singleton_append, charsOf, List.map_cons, hb,
        List.forall₂_cons_left_iff, List.forall₂_cons_left_iff]
      simp only [ih]
    · obtain ⟨b, bs, henc, hb⟩ := utf8EncodeChar_of_le (Nat.not_lt.1 hc)
      rw [hutf8, henc, List.cons_append, charsOf, List.map_cons, List.forall₂_cons_left_iff,
        List.forall₂_cons_left_iff]
      apply iff_of_false
      · rintro ⟨d, ds, hd, -⟩
        exact not_isDigit_byte hb hd
      · rintro ⟨d, ds, hd, -⟩
        exact not_isDigit_of_le (Nat.not_lt.1 hc) hd

/-- A byte is read if it stands for a digit. -/
theorem digitAt_ok_iff {position : Nat} {b : UInt8} :
    digitAt position b = .ok d ↔ IsDigit (Char.ofNat b.toNat) d := by
  rw [← digit?_eq_some_iff, digitAt]
  cases digit? (Char.ofNat b.toNat) with
  | none => simp
  | some d' => simp

/-- Two digits in front of those of a byte string are those of a byte in front of it. -/
theorem spells_pair {hi lo : Char} {h l : Nat} {bs : Bytes} (hhi : IsDigit hi h)
    (hlo : IsDigit lo l) (hcs : Spells cs (Bytes.toNatBE bs)) (hl : 2 * bs.length = cs.length) :
    Spells (hi :: lo :: cs) (Bytes.toNatBE (UInt8.ofNat (16 * h + l) :: bs)) := by
  refine spells_cons_iff.2 ⟨h, _, hhi, spells_cons_iff.2 ⟨l, _, hlo, hcs, rfl⟩, ?_⟩
  have hbyte : (UInt8.ofNat (16 * h + l)).toNat = 16 * h + l := by
    have := hhi.lt
    have := hlo.lt
    rw [UInt8.toNat_ofNat']
    omega
  rw [Bytes.toNatBE_cons, hbyte, List.length_cons, ← hl, Nat.pow_succ, Nat.pow_mul]
  ring

/-- Pairs of digits are read as bytes. -/
theorem exists_bytesFrom (position : Nat) {bs : Bytes} (h : List.Forall₂ IsDigit (charsOf bs) ds) :
    ∃ out, bytesFrom position bs = .ok out := by
  fun_induction bytesFrom position bs generalizing ds with
  | case1 position hi lo rest ih =>
    obtain ⟨dh, ds, hhi, h, -⟩ := List.forall₂_cons_left_iff.1 h
    obtain ⟨dl, ds, hlo, h, -⟩ := List.forall₂_cons_left_iff.1 h
    obtain ⟨out, hout⟩ := ih h
    refine ⟨UInt8.ofNat (16 * dh + dl) :: out, ?_⟩
    rw [digitAt_ok_iff.2 hhi, digitAt_ok_iff.2 hlo, hout]
    rfl
  | case2 => exact ⟨[], rfl⟩

/-- The bytes that are read from pairs of digits spell the number that the digits spell. -/
theorem bytesFrom_ok {position : Nat} {bs out : Bytes} (h : bytesFrom position bs = .ok out)
    (heven : bs.length % 2 = 0) :
    2 * out.length = bs.length ∧ Spells (charsOf bs) (Bytes.toNatBE out) := by
  fun_induction bytesFrom position bs generalizing out with
  | case1 position hi lo rest ih =>
    obtain ⟨dh, hhi, h⟩ := Except.bind_eq_ok_iff.1 h
    obtain ⟨dl, hlo, h⟩ := Except.bind_eq_ok_iff.1 h
    obtain ⟨out, hout, h⟩ := Except.bind_eq_ok_iff.1 h
    obtain rfl := Except.ok.inj h
    rw [digitAt_ok_iff] at hhi hlo
    rw [List.length_cons, List.length_cons] at heven ⊢
    obtain ⟨hl, hrest⟩ := ih hout (by omega)
    refine ⟨by rw [List.length_cons]; omega, ?_⟩
    exact spells_pair hhi hlo hrest (hl.trans (List.length_map _).symm)
  | case2 bs position hbs =>
    obtain rfl := Except.ok.inj h
    match bs, hbs with
    | [], _ => exact ⟨rfl, spells_nil_iff.2 rfl⟩
    | [b], _ => cases heven
    | hi :: lo :: rest, hbs => exact (hbs hi lo rest rfl).elim

/-! ### Written digits -/

/-- The digits that are written for bytes spell their number, and none is of upper case. -/
theorem spells_encodeChars (bs : Bytes) : Spells (encodeChars bs) (Bytes.toNatBE bs) ∧
    (encodeChars bs).map Char.toLower = encodeChars bs := by
  induction bs with
  | nil => exact ⟨spells_nil_iff.2 rfl, rfl⟩
  | cons b bs ih =>
    have hb : b.toNat < 256 := b.toNat_lt
    obtain ⟨hhi, hhigh⟩ := isDigit_digit (show b.toNat / 16 < 16 by omega)
    obtain ⟨hlo, hlow⟩ := isDigit_digit (show b.toNat % 16 < 16 by omega)
    have hpair := spells_pair hhi hlo ih.1 (length_encodeChars bs).symm
    rw [Nat.div_add_mod, UInt8.ofNat_toNat] at hpair
    exact ⟨hpair, by rw [encodeChars, List.map_cons, List.map_cons, hhigh, hlow, ih.2]⟩

/-- The digits that are written for a number spell it, and none is of upper case. -/
theorem spells_toDigits (n : Nat) : Spells (Nat.toDigits 16 n) n ∧
    (Nat.toDigits 16 n).map Char.toLower = Nat.toDigits 16 n := by
  induction n using Nat.strongRecOn with
  | ind n ih =>
    rw [Nat.toDigits_eq_if (by decide)]
    split
    · next h =>
      obtain ⟨hd, hlower⟩ := isDigit_digit h
      rw [digitChar_eq h]
      refine ⟨spells_cons_iff.2 ⟨n, 0, hd, spells_nil_iff.2 rfl, ?_⟩,
        by rw [List.map_singleton, hlower]⟩
      rw [List.length_nil, Nat.pow_zero, Nat.one_mul, Nat.add_zero]
    · next h =>
      obtain ⟨hspells, hsame⟩ := ih (n / 16) (by omega)
      have hmod := Nat.mod_lt n (show 0 < 16 by decide)
      obtain ⟨hd, hlower⟩ := isDigit_digit hmod
      have hconcat := hspells.concat hd
      rw [Nat.div_add_mod] at hconcat
      rw [digitChar_eq hmod]
      exact ⟨hconcat, by rw [List.map_append, hsame, List.map_singleton, hlower]⟩

/-- A written form starts with the mark. -/
theorem toList_append_mark (cs : List Char) :
    ("0x" ++ String.ofList cs).toList = ['0', 'x'] ++ cs := by
  simp only [String.toList_append, String.toList_ofList]
  rfl

/-- Behind the mark stand the digits. -/
theorem unmarked_append (cs : List Char) : unmarked (['0', 'x'] ++ cs) = cs :=
  if_pos (List.prefix_append _ _)

end Hex

end TreeProver
