import Mathlib.Data.List.Forall2
import Mathlib.Tactic.SplitIfs
import TreeProver.Json.Reader
import TreeProver.Json.Writer

/-!
# Reading back written JSON

A reader reads a written value when it takes it off the front of every text that starts with its
written form, at whatever depth that was written and with blanks in front of it. Strings are read
back whatever characters they have, and arrays, pairs and records when their parts are.
-/

namespace TreeProver.Json

/-! ### Blanks -/

/-- All characters of a text are blanks. -/
def AllBlank (cs : List Char) : Prop := ∀ c ∈ cs, isBlank c = true

/-- There are no characters that could be none. -/
theorem allBlank_nil : AllBlank [] := nofun

/-- Blanks are skipped up to a character that is none. -/
theorem skipBlanks_append {blanks : List Char} (hb : AllBlank blanks) {c : Char}
    (hc : isBlank c = false) (rest : List Char) : skipBlanks (blanks ++ c :: rest) = c :: rest := by
  rw [skipBlanks, List.dropWhile_append_of_pos hb, List.dropWhile_cons_of_neg]
  rw [hc]
  decide

/-- Nothing is skipped in front of a character that is no blank. -/
theorem skipBlanks_cons {c : Char} (hc : isBlank c = false) (rest : List Char) :
    skipBlanks (c :: rest) = c :: rest := skipBlanks_append allBlank_nil hc rest

/-- A new line consists of blanks. -/
theorem allBlank_newLine (depth : Nat) : AllBlank (newLine depth) := by
  intro c hc
  rcases List.mem_cons.1 hc with rfl | hc
  · decide
  · rw [List.eq_of_mem_replicate hc]
    decide

/-! ### Strings -/

/-- An escape of one letter is read as the character that it stands for. -/
theorem stringOnto_escaped (acc : List Char) {e c : Char} (h : escaped? e = some c)
    (rest : List Char) : stringOnto acc ('\\' :: e :: rest) = stringOnto (c :: acc) rest := by
  have hu : e ≠ 'u' := by
    rintro rfl
    cases h
  rw [stringOnto]
  · rw [h]
  · rintro _ _ _ _ _ rfl
    exact (hu rfl).elim

/-- A written character is read onto the characters before it. -/
theorem stringOnto_writeChar (acc : List Char) (c : Char) (rest : List Char) :
    stringOnto acc (writeChar c ++ rest) = stringOnto (c :: acc) rest := by
  unfold writeChar
  split_ifs with hquote hslash h h h h h hcontrol
  -- The seven characters that have an escape of their own.
  iterate 7
    · subst_vars
      exact stringOnto_escaped acc rfl rest
  · -- The two low digits of a control character spell its code.
    have hhex : hex4? '0' '0' (Hex.digit (c.toNat / 16)) (Hex.digit (c.toNat % 16))
        = some c.toNat := by
      have h0 : Hex.digit? '0' = some 0 := by decide
      simp only [hex4?, h0, Hex.digit?_digit (show c.toNat / 16 < 16 by omega),
        Hex.digit?_digit (show c.toNat % 16 < 16 by omega), bind, Option.bind]
      congr 1
      omega
    have hhalf : c.toNat < leadingHalf := Nat.lt_trans hcontrol (by decide)
    simp only [List.cons_append, List.nil_append, stringOnto, hhex, hhalf, true_or, ↓reduceIte,
      Char.ofNat_toNat]
  · rw [List.singleton_append, stringOnto, if_neg hcontrol]
    · exact hquote
    · exact fun _ _ _ _ _ h _ ↦ hslash h
    · exact fun _ _ h _ ↦ hslash h

/-- A written string is read back. -/
theorem readString_append (s : String) (rest : List Char) :
    readString (s.toList.flatMap writeChar ++ '"' :: rest) = .ok (s.toList, rest) := by
  have honto : ∀ cs acc : List Char,
      stringOnto acc (cs.flatMap writeChar ++ '"' :: rest) = .ok (acc.reverse ++ cs, rest) := by
    intro cs
    induction cs with
    | nil =>
      intro acc
      rw [List.flatMap_nil, List.nil_append, stringOnto, List.append_nil]
    | cons c cs ih =>
      intro acc
      rw [List.flatMap_cons, List.append_assoc, stringOnto_writeChar, ih, List.reverse_cons,
        List.append_assoc, List.singleton_append]
  exact honto s.toList []

/-! ### Values -/

/-- A character that starts a value: it is no blank, and nothing that may stand in its place. -/
def StartsValue (c : Char) : Prop := isBlank c = false ∧ c ≠ ',' ∧ c ≠ ']'

instance : DecidablePred StartsValue := fun _ ↦ inferInstanceAs (Decidable (_ ∧ _ ∧ _))

/-- What follows a value: nothing, a blank or a comma. -/
def EndsValue (rest : List Char) : Prop := ∀ c cs, rest = c :: cs → isBlank c = true ∨ c = ','

/-- A value may be the last thing in a text. -/
theorem endsValue_nil : EndsValue [] := nofun

/-- A decimal digit starts a value. -/
theorem startsValue_of_isDigit {c : Char} (h : c.isDigit = true) : StartsValue c := by
  refine ⟨decide_eq_false ?_, ?_, ?_⟩
  · rintro (rfl | rfl | rfl | rfl) <;> exact absurd h (by decide)
  · rintro rfl
    exact absurd h (by decide)
  · rintro rfl
    exact absurd h (by decide)

/-- A written value starts with a character that starts a value. -/
theorem exists_write_eq (j : Json) (depth : Nat) :
    ∃ c cs, j.write depth = c :: cs ∧ StartsValue c := by
  match j with
  | .text s => exact ⟨'"', _, by rw [write, writeString]; rfl, by decide⟩
  | .number n =>
    rw [write]
    cases h : Nat.toDigits 10 n with
    | nil =>
      have hpos : 0 < (Nat.toDigits 10 n).length := Nat.length_toDigits_pos
      rw [h] at hpos
      exact absurd hpos (by decide)
    | cons c cs =>
      have hc : c ∈ Nat.toDigits 10 n := by rw [h]; exact List.mem_cons_self
      exact ⟨c, cs, rfl,
        startsValue_of_isDigit (Nat.isDigit_of_mem_toDigits (by decide) (by decide) hc)⟩
  | .list [] => exact ⟨'[', _, by rw [write], by decide⟩
  | .list (x :: xs) => exact ⟨'[', _, by rw [write]; rfl, by decide⟩
  | .object [] => exact ⟨'\x7b', _, by rw [write], by decide⟩
  | .object ((key, x) :: fields) => exact ⟨'\x7b', _, by rw [write]; rfl, by decide⟩

/-- The reader takes the value off the front of every text that starts with its written form, with
blanks in front and an end behind. -/
def Reads {α : Type} (read : Reader α) (j : Json) (x : α) : Prop :=
  ∀ ⦃blanks rest : List Char⦄ (depth : Nat), AllBlank blanks → EndsValue rest →
    read (blanks ++ (j.write depth ++ rest)) = .ok (x, rest)

variable {α β : Type} {read : Reader α} {j : Json} {x : α}

/-- A value is the one that a whole text was written from. -/
theorem Reads.parse (h : Reads read j x) : Json.parse read j.pretty = .ok x := by
  have hread := h 0 allBlank_nil endsValue_nil
  rw [List.nil_append, List.append_nil] at hread
  simp only [Json.parse, pretty, String.toList_ofList, hread, bind, Except.bind]
  rfl

/-- A text is read back. -/
theorem reads_string (s : String) : Reads string (.text s) s.toList := by
  intro blanks rest depth hb _
  have hquote : isBlank '"' = false := by decide
  have hread := readString_append s rest
  rw [write, writeString, List.cons_append, List.cons_append, string, skipBlanks_append hb hquote,
    List.append_assoc, List.singleton_append]
  exact hread

/-- A value that is converted after it has been read is read back when its conversion succeeds. -/
theorem Reads.converted {convert : α → Except String β} {y : β} (h : Reads read j x)
    (hc : convert x = .ok y) : Reads (converted read convert) j y := by
  intro blanks rest depth hb he
  rw [Json.converted, h depth hb he]
  simp only [hc]

/-! ### Arrays -/

/-- The first element of an array is where it starts. -/
theorem nextElement?_first {blanks : List Char} (hb : AllBlank blanks) (j : Json) (depth : Nat)
    (rest : List Char) :
    nextElement? true (blanks ++ (j.write depth ++ rest)) = .ok (some (j.write depth ++ rest)) := by
  obtain ⟨c, cs, hw, hblank, hcomma, hclose⟩ := exists_write_eq j depth
  rw [hw, List.cons_append, nextElement?, skipBlanks_append hb hblank]
  split
  · next h => exact absurd (List.cons.inj h).1 hclose
  · next h => exact absurd (List.cons.inj h).1 hcomma
  · next h => cases h
  · rfl

/-- A further element of an array is behind a comma. -/
theorem nextElement?_next {blanks : List Char} (hb : AllBlank blanks) (j : Json) (depth : Nat)
    (rest : List Char) :
    nextElement? false (',' :: (blanks ++ (j.write depth ++ rest)))
      = .ok (some (j.write depth ++ rest)) := by
  obtain ⟨c, cs, hw, hblank, hcomma, hclose⟩ := exists_write_eq j depth
  have hfirst : isBlank ',' = false := by decide
  rw [hw, List.cons_append, nextElement?, skipBlanks_cons hfirst]
  simp only [Bool.false_eq_true, ↓reduceIte, skipBlanks_append hb hblank]
  split
  · next h => exact absurd (List.cons.inj h).1 hclose
  · next h => cases h
  · rfl

/-- An array ends where its bracket is closed. -/
theorem nextElement?_end {blanks : List Char} (hb : AllBlank blanks) (first : Bool)
    (rest : List Char) : nextElement? first (blanks ++ ']' :: rest) = .ok none := by
  have hclose : isBlank ']' = false := by decide
  rw [nextElement?, skipBlanks_append hb hclose]
  rfl

/-- What follows an array is behind its bracket. -/
theorem endArray_append {blanks : List Char} (hb : AllBlank blanks) (rest : List Char) :
    endArray (blanks ++ ']' :: rest) = .ok rest := by
  have hclose : isBlank ']' = false := by decide
  rw [endArray, skipBlanks_append hb hclose]
  rfl

/-- A value ends where a line or an element ends. -/
theorem endsValue_writeElements (depth : Nat) (js : List Json) (depth' : Nat) (rest : List Char) :
    EndsValue (writeElements depth js ++ (newLine depth' ++ rest)) := by
  rintro c cs h
  cases js with
  | nil =>
    rw [writeElements, List.nil_append, newLine, List.cons_append] at h
    rw [← (List.cons.inj h).1]
    exact .inl (by decide)
  | cons j js =>
    rw [writeElements, List.cons_append, List.cons_append] at h
    exact .inr (List.cons.inj h).1.symm

/-- Every element that follows the first takes a character. -/
theorem length_le_writeElements (depth : Nat) (js : List Json) :
    js.length ≤ (writeElements depth js).length := by
  induction js with
  | nil => exact Nat.zero_le _
  | cons j js ih =>
    simp only [writeElements, List.cons_append, List.length_cons, List.length_append]
    omega

/-- The elements that follow the first are read back. -/
theorem elementsOnto_writeElements {js : List Json} {xs : List α}
    (h : List.Forall₂ (Reads read) js xs)
    {acc : List α} (hacc : acc ≠ []) {steps : Nat} (hsteps : js.length < steps) (depth depth' : Nat)
    (rest : List Char) :
    elementsOnto read steps acc (writeElements depth js ++ (newLine depth' ++ ']' :: rest))
      = .ok (acc.reverse ++ xs, rest) := by
  induction h generalizing acc steps with
  | nil =>
    obtain ⟨steps, rfl⟩ := Nat.exists_eq_succ_of_ne_zero (Nat.ne_of_gt hsteps)
    rw [writeElements, List.nil_append, elementsOnto, nextElement?_end (allBlank_newLine depth'),
      List.append_nil]
    simp only [endArray_append (allBlank_newLine depth')]
  | @cons j x js xs hx _ ih =>
    obtain ⟨steps, rfl⟩ := Nat.exists_eq_succ_of_ne_zero (Nat.ne_of_gt (Nat.zero_lt_of_lt hsteps))
    have hfalse : acc.isEmpty = false := by simpa using hacc
    have hread := hx depth allBlank_nil (endsValue_writeElements depth js depth' (']' :: rest))
    rw [List.nil_append] at hread
    rw [writeElements]
    simp only [List.cons_append, List.append_assoc]
    rw [elementsOnto, hfalse, nextElement?_next (allBlank_newLine depth)]
    simp only [hread]
    rw [ih (by simp) (Nat.lt_of_succ_lt_succ hsteps), List.reverse_cons, List.append_assoc,
      List.singleton_append]

/-- An array is read back when its elements are. -/
theorem reads_array {js : List Json} {xs : List α} (h : List.Forall₂ (Reads read) js xs) :
    Reads (array read) (.list js) xs := by
  intro blanks rest depth hb _
  have hopen : isBlank '[' = false := by decide
  cases h with
  | nil =>
    rw [write, array, List.cons_append, skipBlanks_append hb hopen]
    rfl
  | @cons j x js xs hx hxs =>
    have hread := hx (depth + 1) allBlank_nil
      (endsValue_writeElements (depth + 1) js depth (']' :: rest))
    rw [List.nil_append] at hread
    rw [write]
    simp only [List.cons_append, List.append_assoc, List.nil_append]
    rw [array, skipBlanks_append hb hopen]
    simp only [elementsOnto, List.isEmpty_nil, nextElement?_first (allBlank_newLine (depth + 1)),
      hread]
    refine elementsOnto_writeElements hxs (List.cons_ne_nil _ _) ?_ (depth + 1) depth rest
    have hlength := length_le_writeElements (depth + 1) js
    simp only [List.length_append, List.length_cons, newLine]
    omega

/-- An array is read back when its elements are written one by one and each is read back. -/
theorem reads_array_map {toJson : α → Json} (h : ∀ x, Reads read (toJson x) x) (xs : List α) :
    Reads (array read) (.list (xs.map toJson)) xs := by
  apply reads_array
  rw [List.forall₂_map_left_iff, List.forall₂_same]
  exact fun x _ ↦ h x

/-- An array of two elements is read back when they are. -/
theorem reads_pair {j' : Json} {y : α} (hx : Reads read j x) (hy : Reads read j' y) :
    Reads (pair read) (.list [j, j']) (x, y) := by
  intro blanks rest depth hb _
  have hopen : isBlank '[' = false := by decide
  have hblank := allBlank_newLine (depth + 1)
  have hfirst := hx (depth + 1) allBlank_nil
    (endsValue_writeElements (depth + 1) [j'] depth (']' :: rest))
  have hsecond := hy (depth + 1) allBlank_nil
    (endsValue_writeElements (depth + 1) [] depth (']' :: rest))
  simp only [writeElements, List.nil_append, List.cons_append, List.append_assoc] at hfirst hsecond
  rw [write]
  simp only [writeElements, List.cons_append, List.append_assoc, List.nil_append]
  rw [pair, skipBlanks_append hb hopen]
  simp only [nextElement?_first hblank, hfirst, nextElement?_next hblank, hsecond,
    endArray_append (allBlank_newLine depth), bind, Except.bind]

/-! ### Records -/

/-- The first key of an object is where it starts. -/
theorem nextKey?_first {blanks : List Char} (hb : AllBlank blanks) (rest : List Char) :
    nextKey? true (blanks ++ '"' :: rest) = .ok (some rest) := by
  have hquote : isBlank '"' = false := by decide
  rw [nextKey?, skipBlanks_append hb hquote]
  rfl

/-- A further key of an object is behind a comma. -/
theorem nextKey?_next {blanks : List Char} (hb : AllBlank blanks) (rest : List Char) :
    nextKey? false (',' :: (blanks ++ '"' :: rest)) = .ok (some rest) := by
  have hquote : isBlank '"' = false := by decide
  have hcomma : isBlank ',' = false := by decide
  rw [nextKey?, skipBlanks_cons hcomma]
  simp only [Bool.false_eq_true, ↓reduceIte, skipBlanks_append hb hquote]

/-- An object ends where its bracket is closed. -/
theorem nextKey?_end {blanks : List Char} (hb : AllBlank blanks) (first : Bool) (rest : List Char) :
    nextKey? first (blanks ++ '\x7d' :: rest) = .ok none := by
  have hclose : isBlank '\x7d' = false := by decide
  rw [nextKey?, skipBlanks_append hb hclose]
  rfl

variable {σ : Type} {slots : List (Slot σ)}

/-- Reading written fields one after the other fills the slots of their names, none of which has
been filled before. -/
inductive Fills (slots : List (Slot σ)) : List (String × Json) → σ → σ → Prop
  | nil (s : σ) : Fills slots [] s s
  | cons {slot : Slot σ} {s s' s'' : σ} {j : Json} {fields : List (String × Json)}
      (hfind : slots.find? (fun other ↦ other.name.toList = slot.name.toList) = some slot)
      (hfree : slot.isFilled s = false) (hread : Reads (slot.fill s) j s')
      (hrest : Fills slots fields s' s'') : Fills slots ((slot.name, j) :: fields) s s''

/-- A value ends where a line or a field ends. -/
theorem endsValue_writeFields (depth : Nat) (fields : List (String × Json)) (depth' : Nat)
    (rest : List Char) : EndsValue (writeFields depth fields ++ (newLine depth' ++ rest)) := by
  rintro c cs h
  cases fields with
  | nil =>
    rw [writeFields, List.nil_append, newLine, List.cons_append] at h
    rw [← (List.cons.inj h).1]
    exact .inl (by decide)
  | cons field fields =>
    obtain ⟨key, j⟩ := field
    rw [writeFields] at h
    simp only [List.cons_append] at h
    exact .inr (List.cons.inj h).1.symm

/-- Every field that follows the first takes a character. -/
theorem length_le_writeFields (depth : Nat) (fields : List (String × Json)) :
    fields.length ≤ (writeFields depth fields).length := by
  induction fields with
  | nil => exact Nat.zero_le _
  | cons field fields ih =>
    obtain ⟨key, j⟩ := field
    simp only [writeFields, List.cons_append, List.length_cons, List.length_append]
    omega

/-- A field is read into the slot of its name. -/
theorem gather_field {slot : Slot σ} {s s' : σ} {j : Json} {steps : Nat} {first : Bool}
    {cs rest : List Char} {depth : Nat}
    (hkey : nextKey? first cs = .ok (some (slot.name.toList.flatMap writeChar ++
      '"' :: ':' :: ' ' :: (j.write depth ++ rest))))
    (hfind : slots.find? (fun other ↦ other.name.toList = slot.name.toList) = some slot)
    (hfree : slot.isFilled s = false) (hread : Reads (slot.fill s) j s') (hrest : EndsValue rest) :
    gather slots (steps + 1) first s cs = gather slots steps false s' rest := by
  have hcolon : isBlank ':' = false := by decide
  have hspace : AllBlank [' '] := by simp [AllBlank, isBlank]
  have hfill := hread depth hspace hrest
  rw [List.singleton_append] at hfill
  rw [gather, hkey]
  simp only [readString_append, hfind, hfree, Bool.false_eq_true, ↓reduceIte,
    skipBlanks_cons hcolon, expect, hfill]

/-- The fields that follow the first are read. -/
theorem Fills.gather_eq {fields : List (String × Json)} {s s' : σ} (h : Fills slots fields s s')
    {steps : Nat} (hsteps : fields.length < steps) (depth depth' : Nat) (rest : List Char) :
    gather slots steps false s (writeFields depth fields ++ (newLine depth' ++ '\x7d' :: rest))
      = .ok (s', newLine depth' ++ '\x7d' :: rest) := by
  induction h generalizing steps with
  | nil s =>
    obtain ⟨steps, rfl⟩ := Nat.exists_eq_succ_of_ne_zero (Nat.ne_of_gt hsteps)
    rw [writeFields, List.nil_append, gather, nextKey?_end (allBlank_newLine depth')]
  | @cons slot s s' s'' j fields hfind hfree hread _ ih =>
    obtain ⟨steps, rfl⟩ := Nat.exists_eq_succ_of_ne_zero (Nat.ne_of_gt (Nat.zero_lt_of_lt hsteps))
    rw [writeFields]
    simp only [writeString, List.cons_append, List.append_assoc, List.nil_append]
    rw [gather_field (nextKey?_next (allBlank_newLine depth) _) hfind hfree hread
      (endsValue_writeFields depth fields depth' _), ih (Nat.lt_of_succ_lt_succ hsteps)]

/-- A record is what its fields are gathered into. -/
theorem record_append {name : String} {empty s : σ} {finish : σ → Except Fault α} {y : α}
    {blanks rest last after : List Char} (hb : AllBlank blanks)
    (hgather : gather slots (rest.length + 1) true empty rest = .ok (s, last ++ '\x7d' :: after))
    (hlast : AllBlank last) (hfinish : finish s = .ok y) :
    record name slots empty finish (blanks ++ '\x7b' :: rest) = .ok (y, after) := by
  have hopen : isBlank '\x7b' = false := by decide
  have hclose : isBlank '\x7d' = false := by decide
  rw [record, skipBlanks_append hb hopen]
  simp only [hgather, hfinish, skipBlanks_append hlast hclose, expect, ↓reduceIte, bind,
    Except.bind]

/-- A record is read back when its fields fill its slots. -/
theorem reads_record {name : String} {empty s : σ} {finish : σ → Except Fault α} {y : α}
    {fields : List (String × Json)} (h : Fills slots fields empty s) (hfinish : finish s = .ok y) :
    Reads (record name slots empty finish) (.object fields) y := by
  intro blanks rest depth hb _
  cases h with
  | nil =>
    rw [write]
    have hend := nextKey?_end allBlank_nil true rest
    simp only [List.nil_append, List.cons_append] at hend ⊢
    refine record_append hb ?_ allBlank_nil hfinish
    rw [gather, hend]
    rfl
  | @cons slot _ s' _ j fields hfind hfree hread hrest =>
    rw [write]
    simp only [writeString, List.cons_append, List.append_assoc, List.nil_append]
    refine record_append hb ?_ (allBlank_newLine depth) hfinish
    rw [gather_field (nextKey?_first (allBlank_newLine (depth + 1)) _) hfind hfree hread
      (endsValue_writeFields (depth + 1) fields depth _), hrest.gather_eq]
    have hlength := length_le_writeFields (depth + 1) fields
    simp only [List.length_append, List.length_cons]
    omega

/-- A field that is kept as an option is filled when its value is read. -/
theorem Fills.kept {name : String} {get : σ → Option α} {set : σ → α → σ} {s s' : σ}
    {fields : List (String × Json)}
    (hfind : slots.find? (fun other ↦ other.name.toList = name.toList)
      = some (.kept name get set read))
    (hfree : get s = none) (hread : Reads read j x) (hrest : Fills slots fields (set s x) s') :
    Fills slots ((name, j) :: fields) s s' := by
  refine @Fills.cons _ _ (.kept name get set read) _ _ _ _ _ hfind ?_ ?_ hrest
  · show (get s).isSome = false
    rw [hfree]
    rfl
  · intro blanks rest depth hb he
    simp only [Slot.kept, hread depth hb he, bind, Except.bind]

end TreeProver.Json
