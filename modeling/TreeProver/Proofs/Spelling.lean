import TreeProver.Proof.Coordinate
import TreeProver.Proofs.Hexadecimal
import TreeProver.Proofs.Traversal

/-!
# The texts of words and coordinates

Of every text this says whether it is a word or a coordinate, and which one. Both may have one mark
`0x` in front. A word is a text of sixty-four digits and nothing else; a coordinate may have one
plus sign, as many digits as it wants, and underscores behind the first of them. Digits are of
either case, so that a word has many texts, but it has only one with the mark and without upper-case
letters.
-/

namespace TreeProver

/-! ### Words -/

namespace Word

open Hex

variable {cs : List Char} {w : Word}

/-- The word that is made of bytes has them. -/
theorem ofBytes?_eq_some_iff {bs : Bytes} : ofBytes? bs = some w ↔ w.bytes = bs := by
  rw [ofBytes?]
  constructor
  · intro h
    split at h
    · rw [← Option.some.inj h]
    · cases h
  · rintro rfl
    exact dif_pos w.length_bytes

/-- A text is a word exactly when it has sixty-four digits, and they spell the word. -/
theorem parse_ok_iff : parse cs = .ok w ↔
    (unmarked cs).length = 2 * size ∧ Spells (unmarked cs) w.toNat := by
  rw [parse, dropMark_eq]
  constructor
  · intro h
    split at h
    · cases h
    · next heven =>
      split at h
      · cases h
      · next hlength =>
        obtain ⟨out, hout, h⟩ := Except.bind_eq_ok_iff.1 h
        obtain ⟨-, ds, hds, hvalue⟩ := bytesFrom_ok hout (not_not.1 heven)
        have hw : w.bytes = out := by
          split at h
          · next w' hw' =>
            rw [← Except.ok.inj h, ofBytes?_eq_some_iff.1 hw']
          · cases h
        have hchars := forall₂_utf8_iff.1 hds
        refine ⟨?_, ds, hchars, by rw [toNat, hw, hvalue]⟩
        rw [hchars.length_eq, ← hds.length_eq, charsOf, List.length_map]
        exact not_not.1 hlength
  · rintro ⟨hlength, ds, hds, hvalue⟩
    have hbytes := forall₂_utf8_iff.2 hds
    have hutf8 : (utf8 (unmarked cs)).length = 2 * size := by
      rw [← hlength, hds.length_eq, ← hbytes.length_eq, charsOf, List.length_map]
    have heven : (utf8 (unmarked cs)).length % 2 = 0 := by
      rw [hutf8]
      rfl
    obtain ⟨out, hout⟩ := exists_bytesFrom 0 hbytes
    obtain ⟨hl, hspells⟩ := bytesFrom_ok hout heven
    rw [hutf8] at hl
    have hlength : out.length = w.bytes.length :=
      (Nat.eq_of_mul_eq_mul_left (by decide) hl).trans w.length_bytes.symm
    -- What is read spells the number of the word, and as many bytes do that in one way only.
    have hw : ofBytes? out = some w :=
      ofBytes?_eq_some_iff.2 (Bytes.toNatBE_inj hlength (hspells.unique ⟨ds, hbytes, hvalue⟩)).symm
    rw [if_neg (not_not.2 heven), if_neg (not_not.2 hutf8), hout]
    simp only [bind, Except.bind, hw]

/-- The written form of a word is the mark with the digits of its bytes. -/
theorem toList_format (w : Word) : w.format.toList = ['0', 'x'] ++ encodeChars w.bytes :=
  toList_append_mark _

/-- A word is read back from its written form. -/
theorem parse_format (w : Word) : parse w.format.toList = .ok w := by
  rw [parse_ok_iff, toList_format, unmarked_append, length_encodeChars, w.length_bytes]
  exact ⟨rfl, (spells_encodeChars w.bytes).1⟩

/-- The one text of a word that has the mark and no upper-case letter is the written one. -/
theorem parse_lower_iff : (parse cs = .ok w ∧ ['0', 'x'] <+: cs ∧ cs.map Char.toLower = cs) ↔
    cs = w.format.toList := by
  obtain ⟨hspells, hlower⟩ := spells_encodeChars w.bytes
  constructor
  · rintro ⟨h, ⟨digits, rfl⟩, hdigits⟩
    rw [parse_ok_iff, unmarked_append] at h
    have hlength : digits.length = (encodeChars w.bytes).length := by
      rw [h.1, length_encodeChars, w.length_bytes, size]
    have hsame := (h.2.eq_iff hspells hlength).1 rfl
    rw [hlower] at hsame
    rw [List.map_append] at hdigits
    rw [toList_format, ← hsame, List.append_cancel_left hdigits]
  · rintro rfl
    refine ⟨w.parse_format, ?_, ?_⟩
    · rw [toList_format]
      exact List.prefix_append _ _
    · rw [toList_format, List.map_append, hlower]
      rfl

end Word

/-! ### Coordinates -/

namespace Coordinate

open Hex

variable {cs : List Char} {c : Coordinate} {k n : Nat}

/-- A text behind digits is read exactly when, underscores apart, it consists of digits. -/
theorem digitsOnto_eq_some_iff : digitsOnto n cs = some k ↔
    ∃ m, Spells (cs.filter (· ≠ '_')) m ∧ k = 16 ^ (cs.filter (· ≠ '_')).length * n + m := by
  fun_induction digitsOnto n cs with
  | case1 n =>
    simp only [List.filter_nil, spells_nil_iff, exists_eq_left, List.length_nil, Nat.pow_zero,
      Nat.one_mul, Nat.add_zero, Option.some.injEq]
    exact eq_comm
  | case2 n rest ih => exact ih
  | case3 n c rest hc ih =>
    have hc' : c ≠ '_' := fun h ↦ hc h
    have hfilter : (c :: rest).filter (· ≠ '_') = c :: rest.filter (· ≠ '_') :=
      List.filter_cons_of_pos (decide_eq_true hc')
    rw [hfilter]
    simp only [bind, Option.bind_eq_some_iff, ih, digit?_eq_some_iff, spells_cons_iff,
      List.length_cons]
    constructor
    · rintro ⟨d, hd, m, hm, rfl⟩
      exact ⟨_, ⟨d, m, hd, hm, rfl⟩, by ring⟩
    · rintro ⟨-, ⟨d, m, hd, hm, rfl⟩, rfl⟩
      exact ⟨d, hd, m, hm, by ring⟩

/-- A text without mark and sign is a number exactly when it is not empty, does not start with an
underscore, and consists of digits otherwise. -/
theorem ofDigits?_eq_some_iff : ofDigits? cs = some n ↔
    cs ≠ [] ∧ cs.head? ≠ some '_' ∧ Spells (cs.filter (· ≠ '_')) n := by
  rw [ofDigits?.eq_def]
  split
  · simp
  · simp
  · next hnil hhead =>
    have hhead' : cs.head? ≠ some '_' := by
      intro h
      obtain ⟨rest, h⟩ := List.head?_eq_some_iff.1 h
      exact hhead rest h
    rw [digitsOnto_eq_some_iff]
    simp only [Nat.mul_zero, Nat.zero_add, exists_eq_right']
    exact ⟨fun h ↦ ⟨hnil, hhead', h⟩, fun h ↦ h.2.2⟩

/-- A plus sign is no digit. -/
theorem ofDigits?_plus (cs : List Char) : ofDigits? ('+' :: cs) = none := by
  refine Option.eq_none_iff_forall_ne_some.2 fun n h ↦ ?_
  obtain ⟨-, -, hspells⟩ := ofDigits?_eq_some_iff.1 h
  rw [List.filter_cons_of_pos rfl] at hspells
  obtain ⟨d, m, hd, -⟩ := spells_cons_iff.1 hspells
  exact absurd (digit?_eq_some_iff.2 hd) nofun

/-- One plus sign in front is dropped. -/
theorem ofDigits?_dropPlus_iff : ofDigits? (dropPlus cs) = some n ↔
    ∃ u, (cs = u ∨ cs = '+' :: u) ∧ ofDigits? u = some n := by
  constructor
  · intro h
    rw [dropPlus.eq_def] at h
    split at h
    · next rest => exact ⟨_, .inl rfl, h⟩
    · next rest _ => exact ⟨rest, .inr rfl, h⟩
    · exact ⟨_, .inl rfl, h⟩
  · rintro ⟨u, rfl | rfl, h⟩
    · rw [dropPlus.eq_def]
      split
      · exact h
      · rw [ofDigits?_plus] at h
        cases h
      · exact h
    · rw [dropPlus.eq_def]
      split
      · next rest heq =>
        rw [(List.cons.inj heq).2, ofDigits?_plus] at h
        cases h
      · next rest heq => rwa [← (List.cons.inj heq).2]
      · next hplus => exact absurd rfl (hplus u)

/-- A text is a coordinate exactly when behind mark and sign there are digits, and underscores
behind the first of them, and the digits spell its value. -/
theorem parse_ok_iff : parse cs = .ok c ↔
    ∃ u, (unmarked cs = u ∨ unmarked cs = '+' :: u) ∧ u ≠ [] ∧ u.head? ≠ some '_' ∧
      Spells (u.filter (· ≠ '_')) c.value := by
  simp only [← ofDigits?_eq_some_iff, ← ofDigits?_dropPlus_iff]
  rw [parse, dropMark_eq]
  cases ofDigits? (dropPlus (unmarked cs)) with
  | none => simp
  | some n =>
    constructor
    · intro h
      rw [← Except.ok.inj h]
    · intro h
      rw [Option.some.inj h]

example : (parse "0x+1_F_".toList).toOption = some ⟨31⟩ := by decide

example : (parse "0x0x1".toList).toOption = none ∧ (parse "++1".toList).toOption = none ∧
    (parse "0x+_1".toList).toOption = none := by decide

/-- The padded digits are as many as the value has, but at least sixty-four. -/
theorem length_paddedDigits (n : Nat) :
    (paddedDigits n).length = max (2 * Word.size) (Nat.digits 16 n).length := by
  have hle (k : Nat) (hk : 0 < k) :
      (Nat.toDigits 16 n).length ≤ k ↔ (Nat.digits 16 n).length ≤ k := by
    rw [Nat.length_toDigits_le_iff (by decide) hk, Nat.digits_length_le_iff (by decide)]
  have hpadded : (paddedDigits n).length = max (2 * Word.size) (Nat.toDigits 16 n).length := by
    rw [paddedDigits, List.length_append, List.length_replicate, Word.size]
    omega
  rw [hpadded, Word.size]
  apply Nat.le_antisymm
  · exact max_le (le_max_left _ _) ((hle _ (by omega)).2 (le_max_right _ _))
  · exact max_le (le_max_left _ _) ((hle _ (by omega)).1 (le_max_right _ _))

/-- The padded digits of a number spell it, and none is of upper case. -/
theorem spells_paddedDigits (n : Nat) : Spells (paddedDigits n) n ∧
    (paddedDigits n).map Char.toLower = paddedDigits n := by
  obtain ⟨hspells, hlower⟩ := spells_toDigits n
  refine ⟨hspells.replicate_append _, ?_⟩
  rw [paddedDigits, List.map_append, List.map_replicate, hlower]
  rfl

/-- The written form of a coordinate is the mark with lower-case digits that spell its value: as
many as the value has, but at least sixty-four. -/
theorem exists_format_eq (c : Coordinate) : ∃ ds, c.format.toList = ['0', 'x'] ++ ds ∧
    ds.length = max (2 * Word.size) (Nat.digits 16 c.value).length ∧
    ds.map Char.toLower = ds ∧ Spells ds c.value := by
  obtain ⟨hspells, hlower⟩ := spells_paddedDigits c.value
  exact ⟨_, toList_append_mark _, length_paddedDigits c.value, hlower, hspells⟩

/-- A coordinate is read back from its written form. -/
theorem parse_format (c : Coordinate) : parse c.format.toList = .ok c := by
  obtain ⟨ds, hformat, hlength, -, hspells⟩ := c.exists_format_eq
  have hunderscore : '_' ∉ ds := by
    intro h
    obtain ⟨d, hd⟩ := hspells.exists_isDigit '_' h
    exact absurd (digit?_eq_some_iff.2 hd) nofun
  have hfilter : ds.filter (· ≠ '_') = ds := by
    refine List.filter_eq_self.2 fun x hx ↦ decide_eq_true ?_
    rintro rfl
    exact hunderscore hx
  rw [parse_ok_iff, hformat, unmarked_append]
  refine ⟨ds, .inl rfl, ?_, fun h ↦ hunderscore (List.mem_of_head? h), hfilter.symm ▸ hspells⟩
  rintro rfl
  rw [List.length_nil, Word.size] at hlength
  omega

end Coordinate

/-! ### JSON texts -/

namespace Json

variable {α β : Type} {read : Reader α} {convert : α → Except String β} {text : String}
  {x : α} {y : β}

/-- A whole text is a value exactly when the value is read from its front and only blanks follow. -/
theorem parse_ok_iff : parse read text = .ok x ↔
    ∃ rest, read text.toList = .ok (x, rest) ∧ (skipBlanks rest).isEmpty = true := by
  rw [parse, Except.bind_eq_ok_iff]
  constructor
  · rintro ⟨⟨x', rest⟩, hread, h⟩
    dsimp only at h
    split at h
    · next hend =>
      obtain rfl := Except.ok.inj h
      exact ⟨rest, hread, hend⟩
    · cases h
  · rintro ⟨rest, hread, hend⟩
    exact ⟨(x, rest), hread, if_pos hend⟩

/-- A value is read in another form exactly when it is read and can be converted. -/
theorem converted_ok_iff {cs rest : List Char} : converted read convert cs = .ok (y, rest) ↔
    ∃ x, read cs = .ok (x, rest) ∧ convert x = .ok y := by
  unfold converted
  cases read cs with
  | error e => simp
  | ok found =>
    obtain ⟨x, rest'⟩ := found
    cases hconvert : convert x with
    | error e => simp [hconvert]
    | ok y' => simp [hconvert, and_comm]

/-- A text is a value in another form exactly when it is a value that can be converted. -/
theorem parse_converted_ok_iff : parse (converted read convert) text = .ok y ↔
    ∃ x, parse read text = .ok x ∧ convert x = .ok y := by
  simp only [parse_ok_iff, converted_ok_iff]
  constructor
  · rintro ⟨rest, ⟨x, hread, hconvert⟩, hend⟩
    exact ⟨x, ⟨rest, hread, hend⟩, hconvert⟩
  · rintro ⟨x, ⟨rest, hread, hend⟩, hconvert⟩
    exact ⟨rest, ⟨x, hread, hconvert⟩, hend⟩

end Json

/-- Words and coordinates are the texts that their grammars describe, and no other ones. A text is a
word exactly when, apart from one mark in front, it has sixty-four digits, and they spell the word;
the word is read back from its written form, which is its only text with the mark and without
upper-case letters. A text is a coordinate exactly when, apart from one mark and then one plus sign
in front, it has digits, and underscores behind the first of them, and the digits spell its value; a
coordinate is read back from its written form, which is the mark with lower-case digits that spell
the value, at least sixty-four and no more zeros in front than that takes. In JSON, texts are read
first: a word and a coordinate are strings that are one, and an array of strings is a list of words
exactly when every one of them is a word. -/
theorem words_and_coordinates_are_their_grammars :
    (∀ cs w, Word.parse cs = .ok w ↔
      (Hex.unmarked cs).length = 64 ∧ Hex.Spells (Hex.unmarked cs) w.toNat) ∧
    (∀ w : Word, Word.parse w.format.toList = .ok w ∧
      ∀ cs, (Word.parse cs = .ok w ∧ ['0', 'x'] <+: cs ∧ cs.map Char.toLower = cs) ↔
        cs = w.format.toList) ∧
    (∀ cs c, Coordinate.parse cs = .ok c ↔
      ∃ u, (Hex.unmarked cs = u ∨ Hex.unmarked cs = '+' :: u) ∧ u ≠ [] ∧ u.head? ≠ some '_' ∧
        Hex.Spells (u.filter (· ≠ '_')) c.value) ∧
    (∀ c : Coordinate, Coordinate.parse c.format.toList = .ok c ∧
      ∃ ds, c.format.toList = ['0', 'x'] ++ ds ∧ ds.length = max 64 (Nat.digits 16 c.value).length ∧
        ds.map Char.toLower = ds ∧ Hex.Spells ds c.value) ∧
    ∀ text,
      (∀ w, Json.parse Word.json text = .ok w ↔
        ∃ cs, Json.parse Json.string text = .ok cs ∧ Word.parse cs = .ok w) ∧
      (∀ c, Json.parse Coordinate.json text = .ok c ↔
        ∃ cs, Json.parse Json.string text = .ok cs ∧ Coordinate.parse cs = .ok c) ∧
      (∀ ws, Json.parse Word.jsonList text = .ok ws ↔
        ∃ css, Json.parse (Json.array Json.string) text = .ok css ∧
          List.Forall₂ (fun cs w ↦ Word.parse cs = .ok w) css ws) ∧
      ((∃ ws, Json.parse Word.jsonList text = .ok ws) ↔
        ∃ css, Json.parse (Json.array Json.string) text = .ok css ∧
          ∀ cs ∈ css, ∃ w, Word.parse cs = .ok w) := by
  have hlist (text : String) (ws : List Word) : Json.parse Word.jsonList text = .ok ws ↔
      ∃ css, Json.parse (Json.array Json.string) text = .ok css ∧
        List.Forall₂ (fun cs w ↦ Word.parse cs = .ok w) css ws := by
    simp only [← Except.mapM_ok_iff]
    exact Json.parse_converted_ok_iff
  refine ⟨fun cs w ↦ Word.parse_ok_iff, fun w ↦ ⟨w.parse_format, fun cs ↦ Word.parse_lower_iff⟩,
    fun cs c ↦ Coordinate.parse_ok_iff, fun c ↦ ⟨c.parse_format, c.exists_format_eq⟩, fun text ↦ ?_⟩
  refine ⟨fun w ↦ Json.parse_converted_ok_iff, fun c ↦ Json.parse_converted_ok_iff, hlist text, ?_⟩
  simp only [hlist, ← Except.mapM_ok_iff, ← Except.exists_mapM_ok_iff]
  constructor
  · rintro ⟨ws, css, hcss, hws⟩
    exact ⟨css, hcss, ws, hws⟩
  · rintro ⟨css, hcss, ws, hws⟩
    exact ⟨ws, css, hcss, hws⟩

end TreeProver
