import TreeProver.Proofs.Binary.Digits
import TreeProver.Proofs.Exchange
import TreeProver.Verification

/-!
# The raw form and the calldata of proofs

The raw form of a proof is eight words, one for each coordinate in a fixed order, and calldata are
the raw form with both commitments behind it. A byte string of eight words is the raw form of
exactly one proof with given commitments, and a byte string of ten words is the calldata of exactly
one proof: the proof that is read from it. A proof has these forms exactly when its coordinates fit
into words.
-/

namespace TreeProver

namespace Coordinate

variable {c : Coordinate} {w : Word}

/-- A number has at most 32 digits of base 256 exactly when it is below `2 ^ 256`. -/
theorem byteWidth_le_iff {n : Nat} : byteWidth n ≤ Word.size ↔ n < 2 ^ (256 : Nat) := by
  have hsize : Word.size = 32 := rfl
  rw [byteWidth]
  split
  · next h =>
    subst h
    exact iff_of_true (by decide) (by decide)
  · next h =>
    rw [← Nat.log2_lt h]
    omega

/-- A coordinate is written as a word exactly when that word spells it. -/
theorem toWord_ok_iff : c.toWord = .ok w ↔ c = ofWord w := by
  obtain ⟨n⟩ := c
  rw [toWord]
  constructor
  · intro h
    split at h
    · next hwidth =>
      obtain rfl := Except.ok.inj h
      rw [ofWord, Word.toNat_ofNat (byteWidth_le_iff.1 hwidth)]
    · contradiction
  · intro h
    obtain rfl := Coordinate.mk.inj h
    rw [if_pos (byteWidth_le_iff.2 w.toNat_lt), Word.ofNat_toNat]

/-- A coordinate is written as some word exactly when it is below `2 ^ 256`. -/
theorem exists_toWord_iff : (∃ w, c.toWord = .ok w) ↔ c.value < 2 ^ (256 : Nat) := by
  simp only [toWord_ok_iff]
  constructor
  · rintro ⟨w, rfl⟩
    exact w.toNat_lt
  · intro h
    exact ⟨Word.ofNat c.value, by rw [ofWord, Word.toNat_ofNat h]⟩

end Coordinate

namespace Proof

variable {p q : Proof} {bs : Bytes}

/-! ### The raw form -/

/-- Proofs with the same coordinates and the same commitments are equal. -/
theorem ext_coordinates (h : p.coordinates = q.coordinates) (hi : p.inputHash = q.inputHash)
    (ho : p.outputHash = q.outputHash) : p = q := by
  obtain ⟨⟨a0, a1⟩, ⟨⟨b0, b1⟩, b2, b3⟩, ⟨c0, c1⟩, _, _⟩ := p
  obtain ⟨⟨d0, d1⟩, ⟨⟨e0, e1⟩, e2, e3⟩, ⟨f0, f1⟩, _, _⟩ := q
  simp_all [coordinates]

/-- The coordinate at a position of words side by side is the one that the word there spells. -/
theorem coordinateAt_flatMap {ws : List Word} {i : Nat} (h : i < ws.length) :
    coordinateAt (ws.flatMap Word.bytes) i = .ofWord ws[i] := by
  induction ws generalizing i with
  | nil => contradiction
  | cons w ws ih =>
    have hfirst : w.bytes.length = Word.size := w.length_bytes
    rw [coordinateAt, List.flatMap_cons]
    cases i with
    | zero =>
      rw [Nat.mul_zero, List.drop_zero, List.take_left' hfirst]
      rfl
    | succ i =>
      have hskip : Word.size * (i + 1) = w.bytes.length + Word.size * i := by
        rw [hfirst, Nat.mul_succ, Nat.add_comm]
      rw [hskip, List.drop_length_add_append]
      exact ih (Nat.lt_of_succ_lt_succ h)

/-- The coordinates at the eight positions of eight words are those that the words spell. -/
theorem map_coordinateAt {ws : List Word} (h : ws.length = 8) :
    (List.range 8).map (coordinateAt (ws.flatMap Word.bytes)) = ws.map .ofWord := by
  apply List.ext_getElem
  · rw [List.length_map, List.length_map, List.length_range, h]
  · intro i hi _
    rw [List.length_map, List.length_range] at hi
    rw [List.getElem_map, List.getElem_map, List.getElem_range]
    exact coordinateAt_flatMap (by omega)

/-- The raw form of a proof are the words that spell its coordinates. -/
theorem toRaw_ok_iff : p.toRaw = .ok bs ↔
    ∃ ws : List Word, p.coordinates = ws.map .ofWord ∧ ws.flatMap Word.bytes = bs := by
  have hspells : ∀ ws : List Word,
      p.coordinates.mapM Coordinate.toWord = .ok ws ↔ p.coordinates = ws.map .ofWord := by
    intro ws
    rw [Except.mapM_ok_iff, ← List.forall₂_eq_eq_eq, List.forall₂_map_right_iff]
    simp only [Coordinate.toWord_ok_iff]
  rw [toRaw, Except.bind_eq_ok_iff]
  simp only [hspells, Except.ok.injEq]

/-- The words that spell the coordinates of a proof are eight. -/
theorem length_of_coordinates {ws : List Word} (h : p.coordinates = ws.map .ofWord) :
    ws.length = 8 := by
  rw [← List.length_map, ← h]
  rfl

/-- The raw form takes eight words. -/
theorem length_of_toRaw (h : p.toRaw = .ok bs) : bs.length = rawSize := by
  obtain ⟨ws, hws, rfl⟩ := toRaw_ok_iff.1 h
  rw [Word.length_flatMap_bytes, length_of_coordinates hws]
  rfl

/-- A proof is read from a byte string exactly when it has the commitments that are given and the
byte string is its raw form. -/
theorem ofRaw_ok_iff {inputHash outputHash : Word} : ofRaw bs inputHash outputHash = .ok p ↔
    p.toRaw = .ok bs ∧ p.inputHash = inputHash ∧ p.outputHash = outputHash := by
  rw [ofRaw]
  constructor
  · intro h
    split at h
    · contradiction
    · next hl =>
      obtain ⟨ws, hws, rfl⟩ := Word.exists_flatMap_bytes 8 (not_not.1 hl)
      obtain rfl := Except.ok.inj h
      exact ⟨toRaw_ok_iff.2 ⟨ws, map_coordinateAt hws, rfl⟩, rfl, rfl⟩
  · rintro ⟨h, rfl, rfl⟩
    rw [if_neg (not_not.2 (length_of_toRaw h))]
    obtain ⟨ws, hws, rfl⟩ := toRaw_ok_iff.1 h
    refine congrArg Except.ok (ext_coordinates ?_ rfl rfl)
    exact (map_coordinateAt (length_of_coordinates hws)).trans hws.symm

/-- A proof is read from a byte string, with any commitments, exactly when it is as long as eight
words. -/
theorem exists_ofRaw_iff {inputHash outputHash : Word} :
    (∃ p, ofRaw bs inputHash outputHash = .ok p) ↔ bs.length = rawSize := by
  constructor
  · rintro ⟨p, h⟩
    exact length_of_toRaw (ofRaw_ok_iff.1 h).1
  · intro h
    exact ⟨_, if_neg (not_not.2 h)⟩

/-- Every coordinate of a proof fits into a word. -/
def FitsWords (p : Proof) : Prop := ∀ c ∈ p.coordinates, c.value < 2 ^ (256 : Nat)

/-- A proof has a raw form exactly when its coordinates fit into words. -/
theorem exists_toRaw_iff : (∃ bs, p.toRaw = .ok bs) ↔ p.FitsWords := by
  have hwords : p.FitsWords ↔ ∃ ws, p.coordinates.mapM Coordinate.toWord = .ok ws := by
    rw [Except.exists_mapM_ok_iff]
    simp only [Coordinate.exists_toWord_iff, FitsWords]
  rw [hwords, toRaw]
  simp only [Except.bind_eq_ok_iff, Except.ok.injEq]
  exact ⟨fun ⟨_, ws, h, _⟩ ↦ ⟨ws, h⟩, fun ⟨ws, h⟩ ↦ ⟨_, ws, h, rfl⟩⟩

/-- A proof without a raw form is malformed. -/
theorem toRaw_error : ∀ e, p.toRaw = .error e → ∃ why, e = .malformedProof why :=
  Except.bind_error (Except.mapM_error fun _ _ ↦ Coordinate.toWord_error) fun _ _ ↦ nofun

/-! ### Calldata -/

/-- The calldata of a proof are its raw form with its commitments behind it. -/
theorem toCalldata_ok_iff : p.toCalldata = .ok bs ↔
    ∃ raw, p.toRaw = .ok raw ∧ raw ++ p.inputHash.bytes ++ p.outputHash.bytes = bs := by
  rw [toCalldata, Except.bind_eq_ok_iff]
  simp only [Except.ok.injEq]

/-- Calldata take ten words. -/
theorem length_of_toCalldata (h : p.toCalldata = .ok bs) : bs.length = calldataSize := by
  obtain ⟨raw, hraw, rfl⟩ := toCalldata_ok_iff.1 h
  rw [List.length_append, List.length_append, length_of_toRaw hraw, Word.length_bytes,
    Word.length_bytes]
  rfl

/-- A proof is read from a byte string exactly when that is its calldata. -/
theorem ofCalldata_ok_iff : ofCalldata bs = .ok p ↔ p.toCalldata = .ok bs := by
  rw [ofCalldata]
  constructor
  · intro h
    split at h
    · obtain ⟨hraw, hi, ho⟩ := ofRaw_ok_iff.1 h
      have hinput : p.inputHash.bytes = (bs.drop rawSize).take 32 := congrArg Word.bytes hi
      have houtput : p.outputHash.bytes = (bs.drop rawSize).drop 32 :=
        (congrArg Word.bytes ho).trans List.drop_drop.symm
      refine toCalldata_ok_iff.2 ⟨_, hraw, ?_⟩
      rw [hinput, houtput, List.append_assoc, List.take_append_drop, List.take_append_drop]
    · contradiction
  · intro h
    rw [dif_pos (length_of_toCalldata h)]
    obtain ⟨raw, hraw, rfl⟩ := toCalldata_ok_iff.1 h
    have hlength := length_of_toRaw hraw
    have hinput : ((raw ++ p.inputHash.bytes ++ p.outputHash.bytes).drop rawSize).take 32
        = p.inputHash.bytes := by
      rw [List.append_assoc, List.drop_left' hlength, List.take_left' p.inputHash.length_bytes]
    have houtput : (raw ++ p.inputHash.bytes ++ p.outputHash.bytes).drop (rawSize + 32)
        = p.outputHash.bytes :=
      List.drop_left' (by rw [List.length_append, hlength, p.inputHash.length_bytes])
    refine ofRaw_ok_iff.2 ⟨?_, Word.ext hinput.symm, Word.ext houtput.symm⟩
    rw [List.append_assoc, List.take_left' hlength, hraw]

/-- A proof is read from a byte string exactly when it is as long as ten words. -/
theorem exists_ofCalldata_iff : (∃ p, ofCalldata bs = .ok p) ↔ bs.length = calldataSize := by
  constructor
  · rintro ⟨p, h⟩
    exact length_of_toCalldata (ofCalldata_ok_iff.1 h)
  · intro h
    simp only [ofCalldata, dif_pos h]
    exact exists_ofRaw_iff.2 (by rw [List.length_take, h]; rfl)

/-- A proof has calldata exactly when its coordinates fit into words. -/
theorem exists_toCalldata_iff : (∃ bs, p.toCalldata = .ok bs) ↔ p.FitsWords := by
  rw [← exists_toRaw_iff]
  simp only [toCalldata_ok_iff]
  exact ⟨fun ⟨_, raw, h, _⟩ ↦ ⟨raw, h⟩, fun ⟨raw, h⟩ ↦ ⟨_, raw, h, rfl⟩⟩

/-- A proof without calldata is malformed. -/
theorem toCalldata_error : ∀ e, p.toCalldata = .error e → ∃ why, e = .malformedProof why :=
  Except.bind_error toRaw_error fun _ _ ↦ nofun

/-! ### Points -/

/-- The raw form of points is that of every proof that is written for them. -/
theorem toRaw_ofPoints (points : Groth16.Points) (inputHash outputHash : Word) :
    (ofPoints points inputHash outputHash).toRaw = .ok (rawOfPoints points) := by
  have helements : (ofPoints points inputHash outputHash).coordinates
      = (elements1 points.a ++ elements2 points.b ++ elements1 points.c).map .ofFq := by
    obtain ⟨a, b, c⟩ := points
    cases a <;> cases b <;> cases c <;> rfl
  have hword : ∀ x : Fq, Coordinate.ofFq x = .ofWord (Word.ofNat x.val) := by
    intro x
    have hx : x.val < 2 ^ (256 : Nat) := Nat.lt_trans x.isLt (by decide +kernel)
    rw [Coordinate.ofWord, Word.toNat_ofNat hx, Coordinate.ofFq]
  refine toRaw_ok_iff.2
    ⟨(elements1 points.a ++ elements2 points.b ++ elements1 points.c).map (Word.ofNat ·.val),
      ?_, ?_⟩
  · rw [helements, List.map_map]
    exact List.map_congr_left fun x _ ↦ hword x
  · rw [List.flatMap_map, rawOfPoints]

/-- Reading and writing the raw form and calldata are inverse to each other. Every byte string of
320 bytes, and no other, is read as a proof whose calldata it is; every byte string of 256 bytes,
and no other, is read, with any commitments, as a proof whose raw form it is. A proof has a raw
form, and calldata, exactly when its coordinates are below `2 ^ 256`, and otherwise it is malformed;
it is read back from them, the raw form with its own commitments, so every key decides about what is
read as it does about the proof. The raw form of a proof that is written for points, whichever of
them lie in their groups, is the raw form of the points. -/
theorem raw_and_calldata_are_inverse :
    (∀ bs : Bytes, ((∃ p, ofCalldata bs = .ok p) ↔ bs.length = 320) ∧
      ∀ p, ofCalldata bs = .ok p → p.toCalldata = .ok bs) ∧
    (∀ (bs : Bytes) (inputHash outputHash : Word),
      ((∃ p, ofRaw bs inputHash outputHash = .ok p) ↔ bs.length = 256) ∧
      ∀ p, ofRaw bs inputHash outputHash = .ok p →
        p.toRaw = .ok bs ∧ p.inputHash = inputHash ∧ p.outputHash = outputHash) ∧
    (∀ p : Proof,
      ((∃ bs, p.toRaw = .ok bs) ↔ ∀ c ∈ p.coordinates, c.value < 2 ^ (256 : Nat)) ∧
      ((∃ bs, p.toCalldata = .ok bs) ↔ ∀ c ∈ p.coordinates, c.value < 2 ^ (256 : Nat)) ∧
      ((∃ why, p.toRaw = .error (.malformedProof why)) ↔
        ¬ ∀ c ∈ p.coordinates, c.value < 2 ^ (256 : Nat)) ∧
      ((∃ why, p.toCalldata = .error (.malformedProof why)) ↔
        ¬ ∀ c ∈ p.coordinates, c.value < 2 ^ (256 : Nat))) ∧
    (∀ (p : Proof) (bs : Bytes), (p.toCalldata = .ok bs → ofCalldata bs = .ok p) ∧
      (p.toRaw = .ok bs → ofRaw bs p.inputHash p.outputHash = .ok p)) ∧
    (∀ [Backend] (k : VerifyingKey) (p q : Proof) (bs : Bytes),
      (p.toCalldata = .ok bs → ofCalldata bs = .ok q → k.verify q = k.verify p) ∧
      (p.toRaw = .ok bs → ofRaw bs p.inputHash p.outputHash = .ok q → k.verify q = k.verify p)) ∧
    ∀ (points : Groth16.Points) (inputHash outputHash : Word),
      (ofPoints points inputHash outputHash).toRaw = .ok (rawOfPoints points) := by
  have hraw : ∀ (p : Proof) (bs : Bytes), p.toRaw = .ok bs →
      ofRaw bs p.inputHash p.outputHash = .ok p := fun p bs h ↦ ofRaw_ok_iff.2 ⟨h, rfl, rfl⟩
  have hcalldata : ∀ (p : Proof) (bs : Bytes), p.toCalldata = .ok bs → ofCalldata bs = .ok p :=
    fun p bs ↦ ofCalldata_ok_iff.2
  refine ⟨fun bs ↦ ⟨exists_ofCalldata_iff, fun p ↦ ofCalldata_ok_iff.1⟩,
    fun bs h₁ h₂ ↦ ⟨exists_ofRaw_iff, fun p ↦ ofRaw_ok_iff.1⟩, fun p ↦ ?_,
    fun p bs ↦ ⟨hcalldata p bs, hraw p bs⟩, fun k p q bs ↦ ⟨?_, ?_⟩, toRaw_ofPoints⟩
  · refine ⟨exists_toRaw_iff, exists_toCalldata_iff, ?_, ?_⟩
    · exact (malformed_iff toRaw_error).trans (not_congr exists_toRaw_iff)
    · exact (malformed_iff toCalldata_error).trans (not_congr exists_toCalldata_iff)
  · intro hp hq
    rw [Except.ok.inj ((hcalldata p bs hp).symm.trans hq)]
  · intro hp hq
    rw [Except.ok.inj ((hraw p bs hp).symm.trans hq)]

/-- Any 320 bytes are the calldata of a proof; the raw form of the generators and the identity is
read back; and a coordinate of `2 ^ 256` makes a proof malformed. -/
theorem raw_and_calldata_are_inverse_generators :
    let points : Groth16.Points := ⟨G1.generator, G2.generator, .identity⟩
    let p := ofPoints points default default
    let wide : Proof := { p with c := (⟨2 ^ (256 : Nat)⟩, ⟨0⟩) }
    (∃ q, ofCalldata (List.replicate 320 7) = .ok q ∧
      q.toCalldata = .ok (List.replicate 320 7)) ∧
    p.toRaw = .ok (rawOfPoints points) ∧
    ofRaw (rawOfPoints points) default default = .ok p ∧
    (∀ (k : VerifyingKey) (q : Proof), ofRaw (rawOfPoints points) default default = .ok q →
      k.verify q = k.verify p) ∧
    ∃ why, wide.toCalldata = .error (.malformedProof why) := by
  intro points p wide
  obtain ⟨hcalldata, -, hforms, hback, hverify, hpoints⟩ := raw_and_calldata_are_inverse
  have hraw : p.toRaw = .ok (rawOfPoints points) := hpoints points default default
  have hwide : ¬ ∀ c ∈ wide.coordinates, c.value < 2 ^ (256 : Nat) := by
    intro h
    exact absurd (h ⟨2 ^ (256 : Nat)⟩ (by simp [wide, coordinates])) (by decide)
  obtain ⟨q, hq⟩ := (hcalldata (List.replicate 320 7)).1.2 List.length_replicate
  refine ⟨⟨q, hq, (hcalldata _).2 q hq⟩, hraw, (hback p _).2 hraw, ?_, ?_⟩
  · exact fun k q hq ↦ (hverify k p q _).2 hraw hq
  · exact (hforms wide).2.2.2.2 hwide

end Proof

end TreeProver
