import TreeProver.Proofs.Files.Reading

/-!
# Exact codes

A reader never looks past what it takes, so bytes that follow change nothing but the complaint that
there are too few of them. A value that is read back from its written form is therefore not read
from less than that form. In the other direction a reader is exact when it accepts nothing but
written forms.

Both properties are carried from the parts of a written form to the whole. The written form of a
constraint system has both: it can be told where it ends, it cannot be cut short, and no other bytes
stand for the same system.
-/

namespace TreeProver

namespace Reader

variable {α β : Type} {read : Reader α} {bs rest : Bytes} {x : α}

/-! ### Looking no further -/

/-- Bytes at the end that are not needed do not matter: they change neither a value nor the reason
for a refusal, unless the bytes have ended too early. -/
structure Local (read : Reader α) : Prop where
  ok {bs : Bytes} {x : α} {rest : Bytes} (h : read bs = .ok (x, rest)) (more : Bytes) :
    read (bs ++ more) = .ok (x, rest ++ more)
  error {bs : Bytes} {e : DecodeError} (h : read bs = .error e) (he : e ≠ .endOfInput)
    (more : Bytes) : read (bs ++ more) = .error e

/-- Taking nothing looks at nothing. -/
theorem Local.pure (x : α) : Local fun bs ↦ .ok (x, bs) where
  ok h more := by
    cases h
    rfl
  error h _ _ := by cases h

/-- Refusing everything looks at nothing. -/
theorem Local.refuse (e : DecodeError) :
    Local fun _ ↦ (.error e : Except DecodeError (α × Bytes)) where
  ok h _ := by cases h
  error h _ _ := h

/-- Readers that look no further than what they take, one after the other, look no further than what
they take together. -/
theorem Local.bind {k : α × Bytes → Except DecodeError (β × Bytes)} (h : Local read)
    (hk : ∀ x, Local fun bs ↦ k (x, bs)) : Local fun bs ↦ read bs >>= k where
  ok hread more := by
    obtain ⟨⟨x, middle⟩, hx, hy⟩ := Except.bind_eq_ok_iff.1 hread
    apply Except.bind_eq_ok_iff.2
    exact ⟨(x, middle ++ more), h.ok hx more, (hk x).ok hy more⟩
  error {bs e} hread he more := by
    cases hx : read bs with
    | error e' =>
      rw [hx] at hread
      obtain rfl : e' = e := Except.error.inj hread
      rw [h.error hx he more]
      rfl
    | ok r =>
      obtain ⟨x, middle⟩ := r
      rw [hx] at hread
      rw [h.ok hx more]
      exact (hk x).error hread he more

/-- What is read from its written form is not read from less: the bytes end too early. -/
theorem Local.truncated (hl : Local read) (h : Reads read bs x) {front : Bytes}
    (hp : front <+: bs) (hne : front ≠ bs) : read front = .error .endOfInput := by
  obtain ⟨more, rfl⟩ := hp
  have hall : read (front ++ more) = .ok (x, []) := by
    rw [← h [], List.append_nil]
  cases hr : read front with
  | ok r =>
    -- The whole would be read in the same way and leave what the front lacks, but it leaves
    -- nothing.
    have hlong := hl.ok hr more
    rw [hall, Except.ok.injEq, Prod.mk.injEq] at hlong
    obtain ⟨-, rfl⟩ := List.append_eq_nil_iff.1 hlong.2.symm
    exact absurd (List.append_nil front).symm hne
  | error e =>
    by_cases he : e = .endOfInput
    · rw [he]
    -- Any other refusal would be one of the whole.
    · have hlong := hl.error hr he more
      rw [hall] at hlong
      cases hlong

/-- Bytes are taken when there are enough of them. -/
theorem take_ok_iff {count : Nat} {taken : Bytes} :
    take count bs = .ok (taken, rest) ↔ taken.length = count ∧ bs = taken ++ rest := by
  constructor
  · intro h
    rw [take] at h
    split at h
    · cases h
    · next hlen =>
      cases h
      have hle := List.length_take_le count bs
      refine ⟨?_, (List.take_append_drop count bs).symm⟩
      omega
  · rintro ⟨hlen, rfl⟩
    exact reads_take hlen rest

/-- Taking bytes looks at no others. -/
theorem local_take (count : Nat) : Local (take count) where
  ok h more := by
    obtain ⟨hlen, rfl⟩ := take_ok_iff.1 h
    rw [List.append_assoc]
    exact reads_take hlen _
  error h he _ := by
    rw [take] at h
    split at h
    · cases h
      exact absurd rfl he
    · cases h

/-- Reading a number looks at no bytes but its own. -/
theorem local_number (width : Nat) : Local (number width) :=
  (local_take width).bind fun _ ↦ .pure _

/-- Reading values one after the other looks at no bytes but theirs. -/
theorem local_manyOnto (h : Local read) (count : Nat) (acc : List α) :
    Local (manyOnto read count acc) := by
  induction count generalizing acc with
  | zero => exact .pure acc.reverse
  | succ count ih =>
    have hstep : manyOnto read (count + 1) acc
        = fun bs ↦ read bs >>= fun r ↦ manyOnto read count (r.1 :: acc) r.2 := by
      ext1 bs
      rw [manyOnto]
      cases read bs <;> rfl
    rw [hstep]
    exact h.bind fun x ↦ ih (x :: acc)

/-- Reading a list looks at no bytes but its own. -/
theorem local_list (h : Local read) : Local (list read) :=
  (local_number 8).bind fun count ↦ local_manyOnto h count []

/-! ### Accepting nothing else -/

/-- The reader accepts nothing but written forms of values that fit. -/
def Exact (read : Reader α) (encode : α → Bytes) (fits : α → Prop) : Prop :=
  ∀ bs x rest, read bs = .ok (x, rest) → fits x ∧ bs = encode x ++ rest

/-- The value at the front of a byte string is read with some rest behind it. -/
theorem run_ok_iff : Reader.run read bs = .ok x ↔ ∃ rest, read bs = .ok (x, rest) := by
  rw [Reader.run]
  cases read bs <;> simp [Except.map, Prod.ext_iff, eq_comm]

/-- Where a sequence of readers succeeds, the first has accepted a written form. -/
theorem Exact.of_bind {encode : α → Bytes} {fits : α → Prop} (h : Exact read encode fits)
    {k : α × Bytes → Except DecodeError (β × Bytes)} {y : β}
    (hread : (read bs >>= k) = .ok (y, rest)) :
    ∃ x middle, fits x ∧ bs = encode x ++ middle ∧ k (x, middle) = .ok (y, rest) := by
  obtain ⟨⟨x, middle⟩, hx, hy⟩ := Except.bind_eq_ok_iff.1 hread
  obtain ⟨hfits, hbs⟩ := h bs x middle hx
  exact ⟨x, middle, hfits, hbs, hy⟩

/-- A number is read from its digits only. -/
theorem exact_number (width : Nat) :
    Exact (number width) (Bytes.ofNatLE width) (· < 256 ^ width) := by
  intro bs n rest h
  obtain ⟨⟨taken, middle⟩, htake, hn⟩ := Except.bind_eq_ok_iff.1 h
  obtain ⟨hlen, rfl⟩ := take_ok_iff.1 htake
  cases hn
  rw [← hlen, Bytes.ofNatLE_toNatLE]
  exact ⟨Bytes.toNatLE_lt taken, rfl⟩

/-- A count is read from its eight bytes only. -/
theorem exact_count : Exact count encodeCount (· < UInt64.size) := exact_number 8

/-- Values that are read one after the other are read from their written forms only. -/
theorem manyOnto_exact {encode : α → Bytes} {fits : α → Prop} (h : Exact read encode fits)
    {count : Nat} {acc ys : List α} (hread : manyOnto read count acc bs = .ok (ys, rest)) :
    ∃ xs, ys = acc.reverse ++ xs ∧ xs.length = count ∧ (∀ x ∈ xs, fits x) ∧
      bs = xs.flatMap encode ++ rest := by
  induction count generalizing acc bs with
  | zero =>
    cases hread
    exact ⟨[], (List.append_nil _).symm, rfl, by simp, rfl⟩
  | succ count ih =>
    rw [manyOnto] at hread
    split at hread
    · cases hread
    · next x middle hx =>
      obtain ⟨hfits, rfl⟩ := h _ x middle hx
      obtain ⟨xs, rfl, hlen, hall, rfl⟩ := ih hread
      refine ⟨x :: xs, ?_, ?_, ?_, ?_⟩
      · rw [List.reverse_cons, List.append_assoc, List.singleton_append]
      · rw [List.length_cons, hlen]
      · exact List.forall_mem_cons.2 ⟨hfits, hall⟩
      · rw [List.flatMap_cons, List.append_assoc]

/-- A list is read from its written form only. -/
theorem exact_list {encode : α → Bytes} {fits : α → Prop} (h : Exact read encode fits) :
    Exact (list read) (encodeList encode) fun xs ↦
      xs.length < UInt64.size ∧ ∀ x ∈ xs, fits x := by
  intro bs ys rest hread
  obtain ⟨count, middle, hcount, rfl, hmany⟩ := exact_count.of_bind hread
  obtain ⟨xs, rfl, rfl, hall, rfl⟩ := manyOnto_exact h hmany
  rw [encodeList, List.append_assoc]
  exact ⟨⟨hcount, hall⟩, rfl⟩

end Reader

namespace R1cs

open Reader

/-- Reading a coefficient looks at no bytes but its own. -/
theorem local_scalar : Local readScalar := by
  apply (local_number 32).bind
  intro n
  dsimp only
  cases Residue.ofNat? n with
  | none => exact .refuse .invalidData
  | some x => exact .pure x

/-- Reading an entry looks at no bytes but its own. -/
theorem local_entry : Local readEntry :=
  local_scalar.bind fun _ ↦ (local_number 8).bind fun _ ↦ .pure _

/-- Reading a matrix looks at no bytes but its own. -/
theorem local_matrix : Local readMatrix := local_list (local_list local_entry)

/-- Reading a constraint system looks at no bytes but its own. -/
theorem local_read : Local R1cs.read :=
  (local_number 8).bind fun _ ↦ (local_number 8).bind fun _ ↦ (local_number 8).bind fun _ ↦
    (local_number 8).bind fun _ ↦ (local_number 8).bind fun _ ↦ (local_number 8).bind fun _ ↦
      local_matrix.bind fun _ ↦ local_matrix.bind fun _ ↦ local_matrix.bind fun _ ↦ .pure _

/-- A coefficient is read from the digits of its residue only. -/
theorem exact_scalar : Exact readScalar (fun x ↦ Bytes.ofNatLE 32 x.val) fun _ ↦ True := by
  intro bs x rest h
  obtain ⟨n, middle, -, rfl, hn⟩ := (exact_number 32).of_bind h
  dsimp only at hn
  split at hn
  · next y hy =>
    cases hn
    rw [Residue.ofNat?_eq_some_iff.1 hy]
    exact ⟨trivial, rfl⟩
  · cases hn

/-- An entry is read from its written form only. -/
theorem exact_entry : Exact readEntry encodeEntry (·.2 < UInt64.size) := by
  intro bs e rest h
  obtain ⟨x, _, -, rfl, h₁⟩ := exact_scalar.of_bind h
  obtain ⟨column, _, hcolumn, rfl, h₂⟩ := exact_count.of_bind h₁
  cases h₂
  rw [encodeEntry, List.append_assoc]
  exact ⟨hcolumn, rfl⟩

/-- A matrix is read from its written form only. -/
theorem exact_matrix : Exact readMatrix encodeMatrix fun rows ↦ rows.length < UInt64.size ∧
    ∀ row ∈ rows, row.length < UInt64.size ∧ ∀ e ∈ row, e.2 < UInt64.size :=
  exact_list (exact_list exact_entry)

/-- A constraint system is read from its written form only. -/
theorem exact_read : Exact R1cs.read encode IsStorable := by
  intro bs r rest h
  obtain ⟨instances, _, hinstances, rfl, h₁⟩ := exact_count.of_bind h
  obtain ⟨witnesses, _, hwitnesses, rfl, h₂⟩ := exact_count.of_bind h₁
  obtain ⟨constraints, _, hconstraints, rfl, h₃⟩ := exact_count.of_bind h₂
  obtain ⟨aEntries, _, haEntries, rfl, h₄⟩ := exact_count.of_bind h₃
  obtain ⟨bEntries, _, hbEntries, rfl, h₅⟩ := exact_count.of_bind h₄
  obtain ⟨cEntries, _, hcEntries, rfl, h₆⟩ := exact_count.of_bind h₅
  obtain ⟨a, _, ha, rfl, h₇⟩ := exact_matrix.of_bind h₆
  obtain ⟨b, _, hb, rfl, h₈⟩ := exact_matrix.of_bind h₇
  obtain ⟨c, _, hc, rfl, h₉⟩ := exact_matrix.of_bind h₈
  cases h₉
  have hmatrix : ∀ rows ∈ [a, b, c], rows.length < UInt64.size ∧
      ∀ row ∈ rows, row.length < UInt64.size ∧ ∀ e ∈ row, e.2 < UInt64.size := by
    simp only [List.forall_mem_cons]
    exact ⟨ha, hb, hc, List.forall_mem_nil _⟩
  constructor
  · exact
      { instances := hinstances
        witnesses := hwitnesses
        constraints := hconstraints
        aEntries := haEntries
        bEntries := hbEntries
        cEntries := hcEntries
        rows := fun rows hm ↦ (hmatrix rows hm).1
        entries := fun rows hm row hrow ↦ ((hmatrix rows hm).2 row hrow).1
        columns := fun rows hm row hrow ↦ ((hmatrix rows hm).2 row hrow).2 }
  · simp only [encode, List.append_assoc]

/-- The written form of a constraint system is an exact code. The system is read back whatever
follows, and less than its written form ends too early. What is read is the written form of a
storable system, so bytes that are read as the same system are the same bytes. Files are loaded
accordingly, with a refusal that names the artifact. -/
theorem encode_is_exact_code :
    (∀ r : R1cs, r.IsStorable →
      (∀ rest, R1cs.read (r.encode ++ rest) = .ok (r, rest)) ∧
      ∀ front, front <+: r.encode → front ≠ r.encode →
        R1cs.read front = .error .endOfInput) ∧
    (∀ bs r rest, R1cs.read bs = .ok (r, rest) → r.IsStorable ∧ bs = r.encode ++ rest) ∧
    (∀ taken taken' rest rest' r, R1cs.read (taken ++ rest) = .ok (r, rest) →
      R1cs.read (taken' ++ rest') = .ok (r, rest') → taken = taken') ∧
    ∀ (t : FileTree) (p : Path) (bs : Bytes), t.read p = .ok bs →
      (∀ r : R1cs, r.IsStorable →
        (r.encode <+: bs →
          (Artifact.constraintSystem.load R1cs.read p).run.run t = (.ok r, t)) ∧
        (bs <+: r.encode → bs ≠ r.encode →
          (Artifact.constraintSystem.load R1cs.read p).run.run t
            = (.error (.artifactDecode .constraintSystem .endOfInput), t))) ∧
      ∀ r t', (Artifact.constraintSystem.load R1cs.read p).run.run t = (.ok r, t') →
        r.IsStorable ∧ r.encode <+: bs := by
  have htruncated (r : R1cs) (h : r.IsStorable) (front : Bytes) (hp : front <+: r.encode)
      (hne : front ≠ r.encode) : R1cs.read front = .error .endOfInput :=
    local_read.truncated h.reads hp hne
  refine ⟨fun r h ↦ ⟨h.reads, htruncated r h⟩, exact_read, ?_, ?_⟩
  · intro taken taken' rest rest' r h h'
    have htaken := List.append_cancel_right (exact_read _ r rest h).2
    have htaken' := List.append_cancel_right (exact_read _ r rest' h').2
    rw [htaken, htaken']
  · intro t p bs hfile
    constructor
    · intro r h
      constructor
      · rintro ⟨rest, rfl⟩
        exact Artifact.run_load_ok_iff.2 ⟨rfl, _, hfile, h.reads.run rest⟩
      · intro hp hne
        apply Artifact.run_load_error hfile
        rw [Reader.run, htruncated r h bs hp hne]
        rfl
    · intro r t' h
      obtain ⟨-, content, hcontent, hrun⟩ := Artifact.run_load_ok_iff.1 h
      obtain rfl : bs = content := Except.ok.inj (hfile.symm.trans hcontent)
      obtain ⟨rest, hread⟩ := run_ok_iff.1 hrun
      obtain ⟨hr, hbs⟩ := exact_read bs r rest hread
      exact ⟨hr, rest, hbs.symm⟩

/-- A system with matrices of different heights: its file may have a tail, and may not lack its last
byte. -/
theorem encode_is_exact_code_uneven :
    let r : R1cs := ⟨1, 2, 3, 2, 0, 1, [[(1, 0), (2, 3)]], [], [[], [(5, 1)]]⟩
    let t : FileTree := ⟨[], [(["long.bin"], .file (r.encode ++ [7])),
      (["short.bin"], .file r.encode.dropLast)]⟩
    r.IsStorable ∧ R1cs.read (r.encode ++ [7]) = .ok (r, [7]) ∧
      R1cs.read r.encode.dropLast = .error .endOfInput ∧
      (Artifact.constraintSystem.load R1cs.read "long.bin").run.run t = (.ok r, t) ∧
      (Artifact.constraintSystem.load R1cs.read "short.bin").run.run t
        = (.error (.artifactDecode .constraintSystem .endOfInput), t) := by
  intro r t
  have hr : r.IsStorable := by constructor <;> decide
  have hlong : t.read "long.bin" = .ok (r.encode ++ [7]) := by decide +kernel
  have hshort : t.read "short.bin" = .ok r.encode.dropLast := by decide +kernel
  have hne : r.encode.dropLast ≠ r.encode := by
    intro h
    have hlen := congrArg List.length h
    exact absurd hlen (by decide +kernel)
  obtain ⟨hcode, -, -, hfiles⟩ := encode_is_exact_code
  refine ⟨hr, (hcode r hr).1 [7], (hcode r hr).2 _ (List.dropLast_prefix _) hne, ?_, ?_⟩
  · exact ((hfiles t "long.bin" _ hlong).1 r hr).1 (List.prefix_append _ _)
  · exact ((hfiles t "short.bin" _ hshort).1 r hr).2 (List.dropLast_prefix _) hne

end R1cs

end TreeProver
