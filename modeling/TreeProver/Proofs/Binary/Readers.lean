import TreeProver.Binary
import TreeProver.R1cs

/-!
# Reading back what was written

A reader reads a written form when it takes the value off the front of any byte string that starts
with that form, and gives what follows. Written numbers, lists and constraint systems are read back
as long as their counts fit eight bytes.
-/

namespace TreeProver

namespace Reader

variable {α β : Type}

/-- The reader takes the value off the front of every byte string that starts with its written
form. -/
def Reads (read : Reader α) (bs : Bytes) (x : α) : Prop :=
  ∀ rest, read (bs ++ rest) = .ok (x, rest)

variable {read : Reader α} {bs : Bytes} {x : α}

/-- A value is read whatever follows its written form. -/
theorem Reads.run (h : Reads read bs x) (rest : Bytes) : Reader.run read (bs ++ rest) = .ok x := by
  rw [Reader.run, h rest]
  rfl

/-- A value is read from its written form alone. -/
theorem Reads.run_self (h : Reads read bs x) : Reader.run read bs = .ok x := by
  have hrun := h.run []
  rwa [List.append_nil] at hrun

/-- As many bytes as are asked for are taken. -/
theorem reads_take {count : Nat} (h : bs.length = count) : Reads (take count) bs bs := by
  intro rest
  have htake : (bs ++ rest).take count = bs := List.take_left' h
  have hdrop : (bs ++ rest).drop count = rest := List.drop_left' h
  rw [take, htake, hdrop]
  exact if_neg (by omega)

/-- A number that fits a width is read back from that many bytes. -/
theorem reads_number {width n : Nat} (h : n < 256 ^ width) :
    Reads (number width) (Bytes.ofNatLE width n) n := by
  intro rest
  have htake := reads_take (Bytes.length_ofNatLE width n) rest
  simp only [number, htake, bind, Except.bind, Bytes.toNatLE_ofNatLE, Nat.mod_eq_of_lt h]

/-- A count of at most eight bytes is read back. -/
theorem reads_count {n : Nat} (h : n < UInt64.size) : Reads count (encodeCount n) n :=
  reads_number h

/-- Values that are read one by one are read one after the other, behind those already read. -/
theorem manyOnto_flatMap {encode : α → Bytes} {xs : List α}
    (h : ∀ x ∈ xs, Reads read (encode x) x) (acc : List α) (rest : Bytes) :
    manyOnto read xs.length acc (xs.flatMap encode ++ rest) = .ok (acc.reverse ++ xs, rest) := by
  induction xs generalizing acc with
  | nil => simp [manyOnto]
  | cons x xs ih =>
    rw [List.forall_mem_cons] at h
    rw [List.length_cons, List.flatMap_cons, List.append_assoc, manyOnto, h.1]
    dsimp only
    rw [ih h.2, List.reverse_cons, List.append_assoc, List.singleton_append]

/-- A list that is not too long is read back when its elements are. -/
theorem reads_list {encode : α → Bytes} {xs : List α} (hl : xs.length < UInt64.size)
    (h : ∀ x ∈ xs, Reads read (encode x) x) : Reads (list read) (encodeList encode xs) xs := by
  intro rest
  rw [encodeList, List.append_assoc, list]
  simp only [reads_count hl _, bind, Except.bind]
  exact manyOnto_flatMap h [] rest

/-- A value that passes the test is read. -/
theorem reads_checked {test : α → Bool} (h : Reads read bs x) (ht : test x = true) :
    Reads (checked read test) bs x := by
  intro rest
  simp only [checked, h rest, bind, Except.bind, ht, ↓reduceIte]

end Reader

namespace R1cs

open Reader

/-- Every count and every position of a constraint system fits eight bytes. -/
structure IsStorable (r : R1cs) : Prop where
  instances : r.instances < UInt64.size
  witnesses : r.witnesses < UInt64.size
  constraints : r.constraints < UInt64.size
  aEntries : r.aEntries < UInt64.size
  bEntries : r.bEntries < UInt64.size
  cEntries : r.cEntries < UInt64.size
  rows : ∀ rows ∈ [r.a, r.b, r.c], rows.length < UInt64.size
  entries : ∀ rows ∈ [r.a, r.b, r.c], ∀ row ∈ rows, row.length < UInt64.size
  columns : ∀ rows ∈ [r.a, r.b, r.c], ∀ row ∈ rows, ∀ e ∈ row, e.2 < UInt64.size

/-- A coefficient is read back. -/
theorem reads_scalar (x : Fr) : Reads readScalar (Bytes.ofNatLE 32 x.val) x := by
  intro rest
  have hx : x.val < 256 ^ 32 := Nat.lt_trans x.isLt (by decide)
  simp only [readScalar, reads_number hx _, bind, Except.bind, Residue.ofNat?_val]

/-- An entry is read back. -/
theorem reads_entry {e : Fr × Nat} (h : e.2 < UInt64.size) : Reads readEntry (encodeEntry e) e := by
  intro rest
  rw [encodeEntry, List.append_assoc]
  simp only [readEntry, reads_scalar e.1 _, reads_count h _, bind, Except.bind]

/-- A matrix is read back. -/
theorem reads_matrix {rows : List Row} (hr : rows.length < UInt64.size)
    (he : ∀ row ∈ rows, row.length < UInt64.size)
    (hc : ∀ row ∈ rows, ∀ e ∈ row, e.2 < UInt64.size) :
    Reads readMatrix (encodeMatrix rows) rows :=
  reads_list hr fun row hrow ↦ reads_list (he row hrow) fun e hentry ↦
    reads_entry (hc row hrow e hentry)

/-- A constraint system is read back. -/
theorem IsStorable.reads {r : R1cs} (h : r.IsStorable) : Reads R1cs.read r.encode r := by
  intro rest
  have hmatrix : ∀ rows ∈ [r.a, r.b, r.c], Reads readMatrix (encodeMatrix rows) rows :=
    fun rows hm ↦ reads_matrix (h.rows rows hm) (h.entries rows hm) (h.columns rows hm)
  simp only [List.forall_mem_cons] at hmatrix
  obtain ⟨ha, hb, hc, -⟩ := hmatrix
  simp only [encode, List.append_assoc, R1cs.read, reads_count h.instances _,
    reads_count h.witnesses _, reads_count h.constraints _, reads_count h.aEntries _,
    reads_count h.bEntries _, reads_count h.cEntries _, ha _, hb _, hc _, bind, Except.bind]

end R1cs

end TreeProver
