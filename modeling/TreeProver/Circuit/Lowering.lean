import TreeProver.Circuit.Layout
import TreeProver.R1cs

/-!
# From gates to rank-one rows

A product gate is one row of a rank-one system. A digest gate is taken apart into the bit operations
of SHA-256: every intermediate bit gets a column of its own behind the columns of the layout and a
row that fixes it, and further rows tie the resulting bits to the digest. The intermediate columns
get their values on the way, so the rows of a digest gate hold whenever the digest is the right one.
-/

namespace TreeProver.Circuit

/-- An intermediate bit with its value. During key generation the value is of no account. -/
structure Signal where
  bit : Bit
  value : Bool
  deriving DecidableEq

/-- The columns and rows behind those of a layout. -/
structure Lowering where
  /-- The number of the next free witness column. -/
  witnesses : Nat
  /-- The values of the intermediate columns. -/
  values : Array Fr
  /-- The rows of the system that is built up. -/
  rows : Array (Form × Form × Form)

/-- A computation that adds columns and rows. -/
abbrev Lower := StateM Lowering

namespace Lower

/-- Adds a row. -/
def row (a b c : Form) : Lower Unit := modify fun l ↦ { l with rows := l.rows.push (a, b, c) }

/-- Adds a column for a bit. -/
def newBit (value : Bool) : Lower Signal :=
  modifyGet fun l ↦
    (⟨.wire (.witness l.witnesses) false, value⟩,
      { l with witnesses := l.witnesses + 1, values := l.values.push (scalarOfBool value) })

/-- Exclusive or. The result `c` of two columns satisfies `2 * a * b = a + b - c`. -/
def xor (a b : Signal) : Lower Signal := do
  match a.bit, b.bit with
  | .constant x, bit => pure ⟨bit.flip x, a.value != b.value⟩
  | bit, .constant y => pure ⟨bit.flip y, a.value != b.value⟩
  | x, y =>
    let c ← newBit (a.value != b.value)
    row (x.form.scale 2) y.form ((x.form ++ y.form).sub c.bit.form)
    pure c

/-- One of two bits. The result `c` satisfies `which * (yes - no) = c - no`. -/
def mux (which yes no : Signal) : Lower Signal := do
  match which.bit with
  | .constant b => pure (if b then yes else no)
  | bit =>
    let c ← newBit (if which.value then yes.value else no.value)
    row bit.form (yes.bit.form.sub no.bit.form) (c.bit.form.sub no.bit.form)
    pure c

/-- The value that most of three bits have: the third if the first two differ. -/
def majority (a b c : Signal) : Lower Signal := do mux (← xor a b) c a

end Lower

/-- Thirty-two bits, the least significant first. -/
abbrev SignalWord := List Signal

namespace SignalWord

/-- A constant word. -/
def constant (w : UInt32) : SignalWord :=
  (List.range 32).map fun i ↦
    let b := w.toNat.testBit i
    ⟨.constant b, b⟩

/-- The value of a word. -/
def toNat (w : SignalWord) : Nat := Octet.bitsToNat (w.map Signal.value)

/-- Rotation to the right. -/
def rotr (k : Nat) (w : SignalWord) : SignalWord := w.drop k ++ w.take k

/-- Shift to the right. -/
def shr (k : Nat) (w : SignalWord) : SignalWord :=
  w.drop k ++ List.replicate (min k w.length) ⟨.constant false, false⟩

/-- Bitwise exclusive or. -/
def xor (a b : SignalWord) : Lower SignalWord := (a.zip b).mapM fun p ↦ Lower.xor p.1 p.2

/-- Bitwise exclusive or of three words. -/
def xor3 (a b c : SignalWord) : Lower SignalWord := do xor (← xor a b) c

/-- Bitwise choice. -/
def choose (e f g : SignalWord) : Lower SignalWord :=
  (e.zip (f.zip g)).mapM fun p ↦ Lower.mux p.1 p.2.1 p.2.2

/-- Bitwise majority. -/
def majority (a b c : SignalWord) : Lower SignalWord :=
  (a.zip (b.zip c)).mapM fun p ↦ Lower.majority p.1 p.2.1 p.2.2

/-- The sum of words modulo `2 ^ 32`. The bits of the whole sum are new columns; one row ties them
to the words. -/
def sum (words : List SignalWord) : Lower SignalWord := do
  let total := words.foldl (fun n w ↦ n + w.toNat) 0
  if words.all fun w ↦ w.all fun s ↦ s.bit.isConstant then
    pure (constant (UInt32.ofNat total))
  else
    let width := 32 + words.length.log2 + 1
    let bits ← (List.range width).mapM fun i ↦ do
      let s ← Lower.newBit (total.testBit i)
      Lower.row ((Form.constant 1).sub s.bit.form) s.bit.form []
      pure s
    let whole := words.flatMap fun w ↦ Bit.sum (w.map Signal.bit)
    Lower.row (Form.sub whole (Bit.sum (bits.map Signal.bit))) (Form.constant 1) []
    pure (bits.take 32)

/-- The word of four bytes, the most significant first. -/
def ofBytes (bytes : List (Octet Signal)) : SignalWord := bytes.reverse.flatMap Octet.toList

end SignalWord

namespace Lower

open SignalWord

/-- The words of whole groups of four bytes. -/
def words : List (Octet Signal) → List SignalWord
  | a :: b :: c :: d :: rest => SignalWord.ofBytes [a, b, c, d] :: words rest
  | _ => []

/-- The schedule word that follows the sixteen words of a window. -/
def nextWord (window : List SignalWord) : Lower SignalWord := do
  let far := window.getD 1 []
  let near := window.getD 14 []
  let s0 ← xor3 (rotr 7 far) (rotr 18 far) (shr 3 far)
  let s1 ← xor3 (rotr 17 near) (rotr 19 near) (shr 10 near)
  SignalWord.sum [s1, window.getD 9 [], s0, window.getD 0 []]

/-- The first `count` schedule words that begin with a window of sixteen. The last sixteen of them
are those of the window. -/
def schedule : (count : Nat) → (window : List SignalWord) → Lower (List SignalWord)
  | 0, _ => pure []
  | count + 1, window => do
    let following ←
      if count < 16 then pure (window.drop 1)
      else do pure (window.drop 1 ++ [← nextWord window])
    pure (window.headD [] :: (← schedule count following))

/-- One round: the eight words of the state, a constant and a schedule word. -/
def round (s : List SignalWord) (k : UInt32) (w : SignalWord) : Lower (List SignalWord) := do
  match s with
  | [a, b, c, d, e, f, g, h] =>
    let sigma1 ← xor3 (rotr 6 e) (rotr 11 e) (rotr 25 e)
    let chosen ← choose e f g
    let sigma0 ← xor3 (rotr 2 a) (rotr 13 a) (rotr 22 a)
    let most ← SignalWord.majority a b c
    let t1 := [h, sigma1, chosen, constant k, w]
    let e' ← SignalWord.sum (d :: t1)
    let a' ← SignalWord.sum (sigma0 :: most :: t1)
    pure [a', a, b, c, e', e, f, g]
  | s => pure s

/-- The state after one block of sixteen words. -/
def compress (s block : List SignalWord) : Lower (List SignalWord) := do
  let ws ← schedule 64 block
  let t ← (Sha256.roundConstants.zip ws).foldlM (fun t kw ↦ round t kw.1 kw.2) s
  (s.zip t).mapM fun p ↦ SignalWord.sum [p.1, p.2]

/-- The state after a number of consecutive blocks. -/
def absorb : (blocks : Nat) → (s ws : List SignalWord) → Lower (List SignalWord)
  | 0, s, _ => pure s
  | blocks + 1, s, ws => do absorb blocks (← compress s (ws.take 16)) (ws.drop 16)

/-- The starting state. -/
def initial : List SignalWord :=
  let s := Sha256.initial
  [s.a, s.b, s.c, s.d, s.e, s.f, s.g, s.h].map constant

/-- The bits of a byte with their values. -/
def signals (s : Layout) (b : Byte) : Octet Signal := b.map fun bit ↦ ⟨bit, (s.bit? bit).getD false⟩

/-- A constant byte. -/
def constantByte (b : UInt8) : Octet Signal := (Octet.ofByte b).map fun bit ↦ ⟨.constant bit, bit⟩

/-- The bytes of a word, the most significant first, as bits. -/
def wordBits (w : SignalWord) : List Signal := w.drop 24 ++ (w.drop 16).take 8
  ++ (w.drop 8).take 8 ++ w.take 8

/-- The rows of a digest gate. -/
def digest (s : Layout) (message digest : List Byte) : Lower Unit := do
  let padded := message.map (signals s) ++ (Sha256.padding message.length).map constantByte
  let state ← absorb (Sha256.blockCount message.length) initial (words padded)
  let bits := state.flatMap wordBits
  (bits.zip (digest.flatMap Octet.toList)).forM fun p ↦
    row (p.1.bit.form.sub p.2.form) (Form.constant 1) []

/-- The rows of a gate. -/
def gate (s : Layout) : Gate → Lower Unit
  | .product a b c => row a b c
  | .digest message result => digest s message result

end Lower

/-- The position of a column, when the public columns come first. -/
def Column.position (instances : Nat) : Column → Nat
  | .one => 0
  | .input i => i + 1
  | .witness i => instances + i

namespace Form

/-- Adds up neighbouring entries of equal columns and leaves out zeros. -/
def collect : List (Fr × Nat) → Row
  | [] => []
  | e :: es =>
    match collect es with
    | [] => if e.1 = 0 then [] else [e]
    | e' :: rest =>
      if e.2 = e'.2 then
        if e.1 + e'.1 = 0 then rest else (e.1 + e'.1, e.2) :: rest
      else if e.1 = 0 then e' :: rest
      else e :: e' :: rest

/-- A form as a row: columns in ascending order, each at most once, and no zeros. -/
def toRow (instances : Nat) (f : Form) : Row :=
  collect ((f.map fun t ↦ (t.1, t.2.position instances)).mergeSort fun e e' ↦ decide (e.2 ≤ e'.2))

end Form

namespace Layout

/-- The columns and rows of a layout. -/
def lower (s : Layout) : Lowering :=
  (s.gates.toList.forM (Lower.gate s) ⟨s.witnesses, #[], #[]⟩).2

/-- The rank-one system of a circuit. -/
def toR1cs (s : Layout) : R1cs :=
  let l := s.lower
  let row := Form.toRow s.instances
  R1cs.ofRows s.instances l.witnesses
    (l.rows.toList.map fun r ↦ (row r.1, row r.2.1, row r.2.2))

/-- The values of all columns: the constant one, the public inputs, the witnesses, and the
intermediate columns of a lowering. -/
def columns (s : Layout) (l : Lowering) : Array Fr :=
  #[1] ++ s.inputValues ++ s.witnessValues ++ l.values

/-- The values of all columns of the rank-one system. -/
def assignment (s : Layout) : Array Fr := s.columns s.lower

end Layout

end TreeProver.Circuit
