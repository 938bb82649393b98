import TreeProver.Proofs.Circuits.States
import TreeProver.Proofs.Layout.Witnesses

/-!
# The history of a buffer

A buffer is called again and again, with values to take, layouts to allocate its wires on and wires
that are already there. A call says whether it has succeeded, and leaves a buffer in either case.
After any calls a buffer has its size, the values that it took last and the wires that it got last.

The wires of an allocation read back as the values if every witness of the layout had its value
before. An allocation without values that fails leaves a witness without a value behind, and
whatever is allocated on that layout afterwards does not read back.
-/

namespace TreeProver.Circuit.Buffer

open Layout Synth

/-- A call on a buffer. -/
inductive Call where
  | assign (values : Bytes)
  | alloc (s : Layout)
  | bind (wires : List Byte)

/-- Makes a call: whether it succeeds, and the buffer that is left. -/
def attempt (b : Buffer) : Call → Except Error Unit × Buffer
  | .assign values => b.setValues values
  | .alloc s => ((b.allocate s).1.1.map fun _ ↦ (), (b.allocate s).1.2)
  | .bind wires => b.setWires wires

/-- The buffer that a call leaves. -/
def called (b : Buffer) (call : Call) : Buffer := (b.attempt call).2

/-- What calls leave of a buffer, one after the other. -/
def after (b : Buffer) (calls : List Call) : Buffer := calls.foldl called b

/-- The values of a call that assigns them, if it succeeds. -/
def assigned? (b : Buffer) : Call → Option Bytes
  | .assign values => (b.setValues values).1.toOption.map fun _ ↦ values
  | .alloc _ | .bind _ => none

/-- The wires of a call that allocates or binds them, if it succeeds. -/
def wired? (b : Buffer) : Call → Option (List Byte)
  | .assign _ => none
  | .alloc s => (b.allocate s).1.1.toOption
  | .bind wires => (b.setWires wires).1.toOption.map fun _ ↦ wires

/-- The values of the last of the calls that assign them and succeed, if any does. -/
def lastValues? (b : Buffer) : List Call → Option Bytes
  | [] => none
  | call :: calls => (lastValues? (b.called call) calls).or (b.assigned? call)

/-- The wires of the last of the calls that allocate or bind them and succeed, if any does. -/
def lastWires? (b : Buffer) : List Call → Option (List Byte)
  | [] => none
  | call :: calls => (lastWires? (b.called call) calls).or (b.wired? call)

/-- The buffer fits the given size, and has as many wires if it has any. -/
structure HasWidth (b : Buffer) (n : Nat) : Prop extends b.Fits n where
  wires : b.wires = [] ∨ b.wires.length = n

variable {b c : Buffer} {n : Nat} {s t : Layout}

/-! ### One call -/

/-- A buffer takes the values of which there are as many as it has bytes. -/
theorem setValues_ok_iff {values : Bytes} : b.setValues values = (.ok (), c) ↔
    values.length = b.size ∧ c = { b with values := some values } := by
  rw [setValues]
  split
  · next h => simp [h, eq_comm]
  · next h => simp [h]

/-- A buffer takes the wires of which there are as many as it has bytes. -/
theorem setWires_ok_iff {wires : List Byte} :
    b.setWires wires = (.ok (), c) ↔ wires.length = b.size ∧ c = { b with wires := wires } := by
  rw [setWires]
  split
  · next h => simp [h, eq_comm]
  · next h => simp [h]

/-- An allocation succeeds with the wires that it allocates, which the buffer keeps. -/
theorem allocate_ok_iff {wires : List Byte} : b.allocate s = ((.ok wires, c), t) ↔
    b.allocWires.run s = (.ok wires, t) ∧ c = { b with wires := wires } := by
  rw [allocate]
  rcases b.allocWires.run s with ⟨e | ws, u⟩
  · constructor
    · intro h
      cases h
    · rintro ⟨h, -⟩
      cases h
  · constructor
    · intro h
      cases h
      exact ⟨rfl, rfl⟩
    · rintro ⟨h, rfl⟩
      cases h
      rfl

/-- A call leaves the values that it assigns and the wires that it allocates or binds, and
everything else as it was. -/
theorem called_eq (b : Buffer) (call : Call) :
    b.called call = ⟨b.size, (b.assigned? call).or b.values, (b.wired? call).getD b.wires⟩ := by
  cases call with
  | assign values =>
    rw [called, attempt, assigned?, wired?, setValues]
    split
    · rfl
    · rfl
  | alloc s =>
    rw [called, attempt, assigned?, wired?, allocate]
    rcases b.allocWires.run s with ⟨e | wires, t⟩
    · rfl
    · rfl
  | bind wires =>
    rw [called, attempt, assigned?, wired?, setWires]
    split
    · rfl
    · rfl

/-- A call that fails leaves the buffer as it was. -/
theorem called_of_error {call : Call} {e : Error} (h : (b.attempt call).1 = .error e) :
    b.called call = b := by
  have hassigned : b.assigned? call = none := by
    cases call with
    | assign values => exact congrArg (fun r ↦ r.toOption.map fun _ ↦ values) h
    | alloc s => rfl
    | bind wires => rfl
  have hwired : b.wired? call = none := by
    cases call with
    | assign values => rfl
    | alloc s =>
      rw [wired?]
      cases hr : (b.allocate s).1.1 with
      | error e' => rfl
      | ok wires =>
        rw [attempt, hr] at h
        exact absurd h nofun
    | bind wires => exact congrArg (fun r ↦ r.toOption.map fun _ ↦ wires) h
  rw [called_eq, hassigned, hwired]
  rfl

/-- Values that are assigned have the size of the buffer. -/
theorem length_assigned {call : Call} {values : Bytes} (h : b.assigned? call = some values) :
    values.length = b.size := by
  cases call with
  | assign xs =>
    rw [assigned?, setValues] at h
    split at h
    · next hl =>
      cases h
      exact hl
    · cases h
  | alloc s => cases h
  | bind wires => cases h

/-- A buffer that fits its size has its wires allocated when the values are there or are not needed,
and only then. -/
theorem Fits.allocWires_ok_iff (h : b.Fits n) :
    (∃ wires t, b.allocWires.run s = (.ok wires, t)) ↔
      s.mode = .setup ∨ b.values ≠ none ∨ n = 0 := by
  constructor
  · rintro ⟨wires, t, hrun⟩
    by_contra hn
    obtain ⟨hs, hn⟩ := not_or.1 hn
    obtain ⟨hv, hn⟩ := not_or.1 hn
    rw [allocWires, h.size, not_not.1 hv] at hrun
    exact (Byte.allocAll_fails hs hn).not_ok hrun
  · intro hn
    have hrun := Byte.run_allocAll h.values hn
    rw [← h.size] at hrun
    exact ⟨_, _, hrun⟩

/-- The wires of a buffer that fits its size are the next free witnesses, eight for each byte. -/
theorem Fits.allocWires_eq (h : b.Fits n) {wires : List Byte}
    (hrun : b.allocWires.run s = (.ok wires, t)) :
    wires = Byte.witnesses s.witnesses n ∧ t = s.reserveAll
      ((Byte.optionalBytes n b.values).flatMap fun v ↦ (Byte.optionalBits v).toList) := by
  have hn := h.allocWires_ok_iff.1 ⟨wires, t, hrun⟩
  rw [allocWires, h.size, Byte.run_allocAll h.values hn] at hrun
  obtain ⟨hw, rfl⟩ := Prod.mk.inj hrun
  exact ⟨(Except.ok.inj hw).symm, rfl⟩

/-- The wires of a call that allocates or binds them are as many as the buffer has bytes. -/
theorem Fits.length_wired (h : b.Fits n) {call : Call} {wires : List Byte}
    (hw : b.wired? call = some wires) : wires.length = n := by
  cases call with
  | assign values => cases hw
  | alloc s =>
    have hrun : b.allocate s = ((.ok wires, (b.allocate s).1.2), (b.allocate s).2) :=
      Prod.ext (Prod.ext (Except.eq_ok_of_toOption hw) rfl) rfl
    rw [(h.allocWires_eq (allocate_ok_iff.1 hrun).1).1, Byte.length_witnesses]
  | bind ws =>
    rw [wired?, setWires] at hw
    split at hw
    · next hl =>
      cases hw
      exact hl.trans h.size
    · cases hw

/-- A call keeps the width of a buffer. -/
theorem HasWidth.called (h : b.HasWidth n) (call : Call) : (b.called call).HasWidth n := by
  rw [called_eq]
  refine ⟨⟨h.size, fun values hv ↦ ?_⟩, ?_⟩
  · rcases Option.or_eq_some_iff.1 hv with ha | ⟨-, hb⟩
    · exact (length_assigned ha).trans h.size
    · exact h.values values hb
  · cases hw : b.wired? call with
    | none => exact h.wires
    | some wires => exact .inr (h.length_wired hw)

/-! ### Any calls -/

/-- An empty buffer has its width. -/
theorem hasWidth_empty (n : Nat) : (empty n).HasWidth n := ⟨fits_empty n, .inl rfl⟩

/-- Calls keep the width of a buffer. -/
theorem HasWidth.after (h : b.HasWidth n) (calls : List Call) : (b.after calls).HasWidth n := by
  induction calls generalizing b with
  | nil => exact h
  | cons call calls ih => exact ih (h.called call)

/-- Calls leave the values that are assigned last and the wires that are allocated or bound last. -/
theorem after_eq (b : Buffer) (calls : List Call) : b.after calls
    = ⟨b.size, (b.lastValues? calls).or b.values, (b.lastWires? calls).getD b.wires⟩ := by
  induction calls generalizing b with
  | nil => rfl
  | cons call calls ih =>
    have hstep : b.after (call :: calls) = (b.called call).after calls := rfl
    have hcall := b.called_eq call
    rw [hstep, ih, lastValues?, lastWires?, Option.or_assoc, Option.getD_or]
    rw [congrArg size hcall, congrArg values hcall, congrArg wires hcall]

/-! ### Reading back -/

/-- Except during key generation, allocating the wires of a buffer with values puts their bits
behind the values of the witnesses. -/
theorem Fits.witnessValues_allocWires (h : b.Fits n) {values : Bytes} (hv : b.values = some values)
    (hs : s.mode ≠ .setup) {wires : List Byte} (hrun : b.allocWires.run s = (.ok wires, t)) :
    t.witnessValues.toList = s.witnessValues.toList
      ++ (values.flatMap fun x ↦ (Octet.ofByte x).toList).map scalarOfBool := by
  have hbits : (Byte.optionalBytes n b.values).flatMap (fun v ↦ (Byte.optionalBits v).toList)
      = (values.flatMap fun x ↦ (Octet.ofByte x).toList).map some := by
    rw [hv, Byte.optionalBytes, List.flatMap_map, List.map_flatMap]
    rfl
  rw [(h.allocWires_eq hrun).2, hbits, reserveAll_witnessValues hs]

/-- Where every witness has its value, the wires that are allocated for a buffer read back as its
values. -/
theorem Fits.bytes?_allocWires (h : b.Fits n) {values : Bytes} (hv : b.values = some values)
    (hs : s.mode ≠ .setup) (hall : s.witnessValues.size = s.witnesses) {wires : List Byte}
    (hrun : b.allocWires.run s = (.ok wires, t)) : t.bytes? wires = some values := by
  have hdrop : t.witnessValues.toList.drop s.witnesses
      = (values.flatMap fun x ↦ (Octet.ofByte x).toList).map scalarOfBool ++ [] := by
    rw [h.witnessValues_allocWires hv hs hrun, ← hall, ← Array.length_toList, List.drop_left,
      List.append_nil]
  rw [(h.allocWires_eq hrun).1, ← h.values values hv]
  exact (Byte.bytesAre_witnesses hdrop).bytes?

/-- Where a witness has no value, the wires that are allocated for a buffer do not read back, unless
there are none of them. -/
theorem Fits.bytes?_allocWires_eq_none (h : b.Fits n) (hn : n ≠ 0) (hs : s.mode ≠ .setup)
    (hmissing : s.witnessValues.size < s.witnesses) {wires : List Byte}
    (hrun : b.allocWires.run s = (.ok wires, t)) : t.bytes? wires = none := by
  have hvalues : b.values ≠ none :=
    ((h.allocWires_ok_iff.1 ⟨wires, t, hrun⟩).resolve_left hs).resolve_right hn
  obtain ⟨values, hv⟩ := Option.ne_none_iff_exists'.1 hvalues
  have hbits := Index.length_flatMap_toList (values.map Octet.ofByte)
  rw [List.flatMap_map, List.length_map, h.values values hv] at hbits
  have hsize : t.witnessValues.size = s.witnessValues.size + 8 * n := by
    rw [← Array.length_toList, h.witnessValues_allocWires hv hs hrun, List.length_append,
      List.length_map, hbits, Array.length_toList]
  rw [(h.allocWires_eq hrun).1]
  apply Byte.bytes?_witnesses_eq_none hn
  omega

/-- What holds of a buffer for `size` bytes after calls. -/
structure Tracks (size : Nat) (calls : List Call) (b : Buffer) : Prop where
  /-- The buffer keeps its size, and has values of this size and as many wires if it has any. -/
  width : b.HasWidth size
  /-- The values are the ones that were assigned last. -/
  values : b.values = (empty size).lastValues? calls
  /-- The wires are the ones that were allocated or bound last. -/
  wires : b.wires = ((empty size).lastWires? calls).getD []
  /-- A call that fails leaves the buffer as it is. -/
  failed : ∀ call e, (b.attempt call).1 = .error e → b.called call = b
  /-- Values are taken when there are as many as asked for. -/
  assign : ∀ values, (∃ c, b.setValues values = (.ok (), c)) ↔ values.length = size
  /-- Wires are taken when there are as many as asked for. -/
  bind : ∀ wires, (∃ c, b.setWires wires = (.ok (), c)) ↔ wires.length = size
  /-- Wires are allocated when the values are there or are not needed. -/
  alloc : ∀ s : Layout, (∃ wires c t, b.allocate s = ((.ok wires, c), t)) ↔
    s.mode = .setup ∨ b.values ≠ none ∨ size = 0
  /-- Where every witness has its value, allocated wires read back as the values. -/
  read : ∀ (s : Layout) (wires : List Byte) (c : Buffer) (t : Layout),
    b.allocate s = ((.ok wires, c), t) → s.mode ≠ .setup → s.witnessValues.size = s.witnesses →
      ∀ values, c.values = some values → t.bytes? c.wires = some values
  /-- Where a witness has no value, allocated wires do not read back. -/
  unread : ∀ (s : Layout) (wires : List Byte) (c : Buffer) (t : Layout),
    b.allocate s = ((.ok wires, c), t) → s.mode ≠ .setup → s.witnessValues.size < s.witnesses →
      size ≠ 0 → t.bytes? c.wires = none

/-- A buffer of `size` bytes keeps its width over any calls. It holds the values that it took last
and the wires that it got last, and a call that fails changes nothing. What is allocated on a layout
with all its values reads back as the values of the buffer; what is allocated on a layout where a
value is missing does not. -/
theorem buffers_keep_their_width (size : Nat) (calls : List Call) :
    Tracks size calls ((empty size).after calls) := by
  have hwidth : ((empty size).after calls).HasWidth size := (hasWidth_empty size).after calls
  have hafter := (empty size).after_eq calls
  constructor
  case width => exact hwidth
  case values => exact (congrArg Buffer.values hafter).trans Option.or_none
  case wires => exact congrArg Buffer.wires hafter
  case failed => exact fun call e ↦ called_of_error
  case assign =>
    intro values
    simp only [setValues_ok_iff, hwidth.size, exists_and_left, exists_eq, and_true]
  case bind =>
    intro wires
    simp only [setWires_ok_iff, hwidth.size, exists_and_left, exists_eq, and_true]
  case alloc =>
    intro s
    rw [← hwidth.allocWires_ok_iff]
    constructor
    · rintro ⟨wires, c, t, hrun⟩
      exact ⟨wires, t, (allocate_ok_iff.1 hrun).1⟩
    · rintro ⟨wires, t, hw⟩
      exact ⟨wires, _, t, allocate_ok_iff.2 ⟨hw, rfl⟩⟩
  case read =>
    intro s wires c t hrun hs hall values hv
    obtain ⟨hw, rfl⟩ := allocate_ok_iff.1 hrun
    exact hwidth.bytes?_allocWires hv hs hall hw
  case unread =>
    intro s wires c t hrun hs hmissing hn
    obtain ⟨hw, rfl⟩ := allocate_ok_iff.1 hrun
    exact hwidth.bytes?_allocWires_eq_none hn hs hmissing hw

/-- A byte that was assigned after two bytes had been refused is read back from the wires that are
allocated for it. -/
theorem buffers_keep_their_width_byte :
    let b := (empty 1).after [.assign [1, 2], .assign [1]]
    b.called (.assign [1, 2]) = b ∧
      ∃ wires c t, b.allocate (Layout.empty .proving) = ((.ok wires, c), t) ∧
        c.wires.length = 1 ∧ t.bytes? c.wires = some [1] := by
  intro b
  have h : Tracks 1 [.assign [1, 2], .assign [1]] b := buffers_keep_their_width 1 _
  have hb : b.values = some [1] := rfl
  obtain ⟨wires, c, t, hrun⟩ := (h.alloc (Layout.empty .proving)).2 (.inr (.inl (by simp [hb])))
  obtain ⟨-, rfl⟩ := allocate_ok_iff.1 hrun
  have hwired : b.wired? (.alloc (Layout.empty .proving)) = some wires := by
    rw [wired?, hrun]
    rfl
  exact ⟨h.failed _ _ rfl, wires, _, t, hrun, h.width.length_wired hwired,
    h.read _ _ _ t hrun (by decide) rfl [1] hb⟩

/-- An allocation that fails for a missing value spoils the layout: a byte that is allocated on it
afterwards does not read back. -/
theorem failed_allocation_spoils_layout :
    let first := (empty 1).allocate (Layout.empty .proving)
    let b := (empty 1).after [.alloc (Layout.empty .proving), .assign [1]]
    first.1.1 = .error (.synthesis .assignmentMissing) ∧ first.2.mode = .proving ∧
      ∃ wires c t, b.allocate first.2 = ((.ok wires, c), t) ∧ c.values = some [1] ∧
        t.bytes? c.wires = none := by
  intro first b
  have hb : b.values = some [1] := rfl
  have hfits : b.Fits 1 := ((hasWidth_empty 1).after _).toFits
  obtain ⟨wires, t, hw⟩ := (hfits.allocWires_ok_iff (s := first.2)).2 (.inr (.inl (by simp [hb])))
  refine ⟨rfl, rfl, wires, _, t, allocate_ok_iff.2 ⟨hw, rfl⟩, hb, ?_⟩
  exact hfits.bytes?_allocWires_eq_none (by decide) (by decide) (by decide) hw

end TreeProver.Circuit.Buffer
