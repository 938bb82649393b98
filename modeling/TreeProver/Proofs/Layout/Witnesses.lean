import TreeProver.Proofs.Layout.Mirror

/-!
# Reserving witnesses

Bytes that are allocated as witnesses take the next free columns, eight for each byte. During key
generation they get no values; otherwise their values are put behind the ones that are there,
whatever columns those belong to. So the columns of the bytes have the values of the bytes exactly
when every column before them had a value.
-/

namespace TreeProver.Circuit

open Layout Synth

variable {α β : Type} {s t : Layout}

/-- The bits of the witnesses from `start` on. -/
def Bit.witnesses (start : Nat) : Nat → List Bit
  | 0 => []
  | count + 1 => .wire (.witness start) false :: witnesses (start + 1) count

/-- The byte of the eight witnesses from `start` on. -/
def Byte.witness (start : Nat) : Byte :=
  let bit (i : Nat) : Bit := .wire (.witness (start + i)) false
  ⟨bit 0, bit 1, bit 2, bit 3, bit 4, bit 5, bit 6, bit 7⟩

/-- The bytes of the witnesses from `start` on. -/
def Byte.witnesses (start : Nat) : Nat → List Byte
  | 0 => []
  | count + 1 => witness start :: witnesses (start + 8) count

/-- The bits of a byte of witnesses are witnesses. -/
theorem Byte.toList_witness (start : Nat) :
    (Byte.witness start).toList = Bit.witnesses start 8 := rfl

/-- There are as many bytes of witnesses as asked for. -/
@[simp] theorem Byte.length_witnesses (start count : Nat) :
    (Byte.witnesses start count).length = count := by
  induction count generalizing start with
  | zero => rfl
  | succ count ih => rw [witnesses, List.length_cons, ih]

namespace Layout

/-- The layout with one more bit as a witness. -/
def reserve (s : Layout) (v : Option Bool) : Layout :=
  { s with
    witnesses := s.witnesses + 1
    witnessValues := if s.mode = .setup then s.witnessValues
      else s.witnessValues ++ (v.map scalarOfBool).toArray
    gates := s.gates.push (Bit.boolean (.witness s.witnesses)) }

/-- The layout with more bits as witnesses. -/
def reserveAll (s : Layout) (vs : List (Option Bool)) : Layout := vs.foldl reserve s

/-- Reserving witnesses does not change what a layout is made for. -/
@[simp] theorem reserveAll_mode (s : Layout) (vs : List (Option Bool)) :
    (s.reserveAll vs).mode = s.mode := by
  induction vs generalizing s with
  | nil => rfl
  | cons v vs ih => exact ih (s.reserve v)

/-- One witness is reserved for each bit. -/
@[simp] theorem reserveAll_witnesses (s : Layout) (vs : List (Option Bool)) :
    (s.reserveAll vs).witnesses = s.witnesses + vs.length := by
  induction vs generalizing s with
  | nil => rfl
  | cons v vs ih =>
    have h : (s.reserveAll (v :: vs)).witnesses = s.witnesses + 1 + vs.length := ih (s.reserve v)
    rw [h, List.length_cons]
    omega

/-- Except during key generation the values of the bits are put behind the ones that are there. -/
theorem reserveAll_witnessValues (hs : s.mode ≠ .setup) (vs : List Bool) :
    (s.reserveAll (vs.map some)).witnessValues.toList
      = s.witnessValues.toList ++ vs.map scalarOfBool := by
  induction vs generalizing s with
  | nil => simp [reserveAll]
  | cons v vs ih =>
    have h : (s.reserve (some v)).witnessValues.toList
        = s.witnessValues.toList ++ [scalarOfBool v] := by
      simp [reserve, hs]
    have hrest : (s.reserveAll ((v :: vs).map some)).witnessValues.toList
        = (s.reserve (some v)).witnessValues.toList ++ vs.map scalarOfBool :=
      @ih (s.reserve (some v)) hs
    rw [hrest, h, List.map_cons, List.append_assoc, List.singleton_append]

end Layout

/-! ### Running an allocation -/

/-- The next free witness is reserved for a bit, if it has a value or needs none. -/
theorem Bit.run_alloc {v : Option Bool} (h : s.mode = .setup ∨ v ≠ none) :
    (Bit.alloc .witness v).run s = (.ok (.wire (.witness s.witnesses) false), s.reserve v) := by
  obtain ⟨mode, inputs, witnesses, inputValues, witnessValues, gates⟩ := s
  cases v with
  | some b => cases mode <;> rfl
  | none =>
    obtain rfl : mode = .setup := h.resolve_right fun hn ↦ hn rfl
    rfl

/-- The next free witnesses are reserved for bits, if all of them have values or need none. -/
theorem Bit.run_allocAll {vs : List (Option Bool)} (h : s.mode = .setup ∨ none ∉ vs) :
    (vs.mapM (Bit.alloc .witness)).run s
      = (.ok (Bit.witnesses s.witnesses vs.length), s.reserveAll vs) := by
  induction vs generalizing s with
  | nil => rfl
  | cons v vs ih =>
    have hv : s.mode = .setup ∨ v ≠ none := h.imp_right fun hn he ↦ hn (by simp [he])
    have hvs : (s.reserve v).mode = .setup ∨ none ∉ vs := h.imp_right fun hn hm ↦ hn (by simp [hm])
    rw [List.mapM_cons]
    exact run_bind_ok_iff.2 ⟨_, _, Bit.run_alloc hv, run_bind_ok_iff.2 ⟨_, _, ih hvs, rfl⟩⟩

/-- The next eight free witnesses are reserved for a byte, if it has a value or needs none. -/
theorem Byte.run_alloc {v : Option UInt8} (h : s.mode = .setup ∨ v ≠ none) :
    (Byte.alloc .witness v).run s
      = (.ok (Byte.witness s.witnesses), s.reserveAll (Byte.optionalBits v).toList) := by
  have hbits : s.mode = .setup ∨ none ∉ (Byte.optionalBits v).toList := by
    refine h.imp_right fun hv ↦ ?_
    obtain ⟨x, rfl⟩ := Option.ne_none_iff_exists'.1 hv
    simp [Byte.optionalBits, Octet.map, Octet.toList]
  obtain ⟨r, hr, hrun⟩ := run_octet_mapM (Bit.run_allocAll hbits)
  rw [Byte.alloc, hrun, Octet.toList_inj (hr.trans (Byte.toList_witness s.witnesses).symm)]

/-- The next free witnesses are reserved for bytes, if all of them have values or need none. -/
theorem Byte.run_allocEach {vs : List (Option UInt8)} (h : s.mode = .setup ∨ none ∉ vs) :
    (vs.mapM (Byte.alloc .witness)).run s = (.ok (Byte.witnesses s.witnesses vs.length),
      s.reserveAll (vs.flatMap fun v ↦ (Byte.optionalBits v).toList)) := by
  induction vs generalizing s with
  | nil => rfl
  | cons v vs ih =>
    have hv : s.mode = .setup ∨ v ≠ none := h.imp_right fun hn he ↦ hn (by simp [he])
    let t := s.reserveAll (Byte.optionalBits v).toList
    have ht : t.witnesses = s.witnesses + 8 := reserveAll_witnesses s _
    have hvs : t.mode = .setup ∨ none ∉ vs := by
      rw [reserveAll_mode]
      exact h.imp_right fun hn hm ↦ hn (by simp [hm])
    have hrest := ih hvs
    rw [ht] at hrest
    rw [List.mapM_cons, List.flatMap_cons, reserveAll, List.foldl_append]
    exact run_bind_ok_iff.2 ⟨_, t, Byte.run_alloc hv, run_bind_ok_iff.2 ⟨_, _, hrest, rfl⟩⟩

/-- The next free witnesses are reserved for a byte string of the right length, if it has a value,
needs none or is empty. -/
theorem Byte.run_allocAll {length : Nat} {values : Option Bytes}
    (hl : ∀ xs, values = some xs → xs.length = length)
    (h : s.mode = .setup ∨ values ≠ none ∨ length = 0) :
    (Byte.allocAll .witness length values).run s = (.ok (Byte.witnesses s.witnesses length),
      s.reserveAll ((Byte.optionalBytes length values).flatMap fun v ↦
        (Byte.optionalBits v).toList)) := by
  have hvalues : s.mode = .setup ∨ none ∉ Byte.optionalBytes length values := by
    refine h.imp_right fun hv ↦ ?_
    cases values with
    | some xs => simp [Byte.optionalBytes]
    | none => simp [Byte.optionalBytes, hv.resolve_left fun hn ↦ hn rfl]
  have hrun := Byte.run_allocEach hvalues
  rw [Byte.length_optionalBytes hl] at hrun
  cases values with
  | none => exact hrun
  | some xs =>
    simp only [Byte.allocAll, hl xs rfl, ne_eq, not_true_eq_false, ↓reduceIte]
    exact hrun

/-! ### Reading back -/

/-- Witnesses with the values of truth values stand for them. -/
theorem Bit.bitsAre_witnesses {start : Nat} {vs : List Bool} {rest : List Fr}
    (h : s.witnessValues.toList.drop start = vs.map scalarOfBool ++ rest) :
    s.BitsAre (Bit.witnesses start vs.length) vs := by
  induction vs generalizing start with
  | nil => exact .nil
  | cons v vs ih =>
    rw [List.map_cons, List.cons_append] at h
    have hv : s.value? (.witness start) = some (scalarOfBool v) := by
      rw [value?, ← Array.getElem?_toList, ← List.head?_drop, h, List.head?_cons]
    refine .cons (bitIs_wire.2 hv) (ih ?_)
    rw [← List.tail_drop, h, List.tail_cons]

/-- Witnesses with the values of the bits of bytes stand for the bytes. -/
theorem Byte.bytesAre_witnesses {start : Nat} {xs : Bytes} {rest : List Fr}
    (h : s.witnessValues.toList.drop start
      = (xs.flatMap fun x ↦ (Octet.ofByte x).toList).map scalarOfBool ++ rest) :
    s.BytesAre (Byte.witnesses start xs.length) xs := by
  induction xs generalizing start with
  | nil => exact .nil
  | cons x xs ih =>
    rw [List.flatMap_cons, List.map_append, List.append_assoc] at h
    refine .cons (Bit.bitsAre_witnesses h) (ih ?_)
    have hlength : ((Octet.ofByte x).toList.map scalarOfBool).length = 8 := rfl
    rw [← List.drop_drop, h, ← hlength, List.drop_left]

/-- A list has no values if one of its elements has none. -/
theorem mapM_eq_none {f : α → Option β} {xs : List α} {x : α} (hx : x ∈ xs) (hf : f x = none) :
    xs.mapM f = none := by
  induction xs with
  | nil => cases hx
  | cons y ys ih =>
    rw [List.mapM_cons]
    cases hx with
    | head => rw [hf]; rfl
    | tail _ hx => cases f y <;> simp [ih hx]

/-- The byte at a place of bytes of witnesses. -/
theorem Byte.witness_mem {start count i : Nat} (h : i < count) :
    Byte.witness (start + 8 * i) ∈ Byte.witnesses start count := by
  induction count generalizing start i with
  | zero => contradiction
  | succ count ih =>
    cases i with
    | zero => exact List.mem_cons_self
    | succ i =>
      have hmem := @ih (start + 8) i (Nat.lt_of_succ_lt_succ h)
      rw [show start + 8 + 8 * i = start + 8 * (i + 1) by omega] at hmem
      exact List.mem_cons_of_mem _ hmem

/-- Bytes of witnesses of which the last one has no value have no values. -/
theorem Byte.bytes?_witnesses_eq_none {start count : Nat} (hcount : count ≠ 0)
    (h : s.witnessValues.size < start + 8 * count) :
    s.bytes? (Byte.witnesses start count) = none := by
  let last := start + 8 * (count - 1)
  have hbit : s.bit? (.wire (.witness (last + 7)) false) = none := by
    have hsize : s.witnessValues.size ≤ last + 7 := by omega
    rw [bit?, value?, Array.getElem?_eq_none hsize, Option.map_none]
  have hmem : Bit.wire (.witness (last + 7)) false ∈ (Byte.witness last).toList := by
    simp [Byte.witness, Octet.toList]
  have hlist := mapM_toList s.bit? (Byte.witness last)
  rw [mapM_eq_none hmem hbit, Option.map_eq_none_iff] at hlist
  have hbyte : s.byte? (Byte.witness last) = none := by
    rw [byte?, hlist, Option.map_none]
  exact mapM_eq_none (Byte.witness_mem (by omega)) hbyte

end TreeProver.Circuit
