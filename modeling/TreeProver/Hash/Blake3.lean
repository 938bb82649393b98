import TreeProver.Word

/-!
# BLAKE3

The hash that names a verifying key. A message is cut into chunks of 1024 bytes, every chunk is
compressed block by block, and the chunks are the leaves of a binary tree in which an odd node at
the end of a level moves up unchanged. The digest is the first 32 bytes of the root node's output.
-/

namespace TreeProver.Blake3

/-- Four words of a state or a message. -/
structure Row where
  x : UInt32
  y : UInt32
  z : UInt32
  w : UInt32
  deriving DecidableEq

namespace Row

/-- Applies an operation to the words of two rows. -/
def zipWith (f : UInt32 → UInt32 → UInt32) (r s : Row) : Row :=
  ⟨f r.x s.x, f r.y s.y, f r.z s.z, f r.w s.w⟩

/-- Word-by-word sum. -/
def add (r s : Row) : Row := zipWith (· + ·) r s

/-- Word-by-word exclusive or, then a rotation of every word to the right. -/
def mixIn (k : UInt32) (r s : Row) : Row :=
  zipWith (fun a b ↦ ((a ^^^ b) >>> k) ||| ((a ^^^ b) <<< (32 - k))) r s

/-- The row with its words moved one place to the left. -/
def turn (r : Row) : Row := ⟨r.y, r.z, r.w, r.x⟩

/-- The words in order. -/
def toList (r : Row) : List UInt32 := [r.x, r.y, r.z, r.w]

end Row

/-- Four rows of four words. -/
structure State where
  a : Row
  b : Row
  c : Row
  d : Row

/-- Mixes the four columns with two message rows. -/
def State.mix (s : State) (m n : Row) : State :=
  let a := (s.a.add s.b).add m
  let d := s.d.mixIn 16 a
  let c := s.c.add d
  let b := s.b.mixIn 12 c
  let a := (a.add b).add n
  let d := d.mixIn 8 a
  let c := c.add d
  ⟨a, b.mixIn 7 c, c, d⟩

/-- Moves the diagonals into the columns. -/
def State.skew (s : State) : State := ⟨s.a, s.b.turn, s.c.turn.turn, s.d.turn.turn.turn⟩

/-- Moves the columns back to the diagonals. -/
def State.unskew (s : State) : State := ⟨s.a, s.b.turn.turn.turn, s.c.turn.turn, s.d.turn⟩

/-- The message words at four positions. -/
def pick (m : List UInt32) (i j k l : Nat) : Row :=
  ⟨m.getD i 0, m.getD j 0, m.getD k 0, m.getD l 0⟩

/-- One round: the columns, then the diagonals. -/
def round (s : State) (m : List UInt32) : State :=
  ((s.mix (pick m 0 2 4 6) (pick m 1 3 5 7)).skew.mix
    (pick m 8 10 12 14) (pick m 9 11 13 15)).unskew

/-- The order in which the next round reads the message words. -/
def order : List Nat := [2, 6, 3, 10, 7, 0, 4, 13, 1, 11, 12, 5, 9, 14, 15, 8]

/-- A number of rounds, the message reordered between them. -/
def rounds : (count : Nat) → State → List UInt32 → State
  | 0, s, _ => s
  | count + 1, s, m => rounds count (round s m) (order.map fun i ↦ m.getD i 0)

/-- The first four starting words. -/
def startLow : Row := ⟨0x6a09e667, 0xbb67ae85, 0x3c6ef372, 0xa54ff53a⟩

/-- The last four starting words. -/
def startHigh : Row := ⟨0x510e527f, 0x9b05688c, 0x1f83d9ab, 0x5be0cd19⟩

/-- A chaining value: eight words. -/
structure Chain where
  low : Row
  high : Row

/-- The chaining value that every chunk and every parent starts from. -/
def start : Chain := ⟨startLow, startHigh⟩

/-- Marks of a compression: the first and the last block of a chunk, a parent node, the root. -/
def chunkStart : UInt32 := 1

/-- The mark of the last block of a chunk. -/
def chunkEnd : UInt32 := 2

/-- The mark of a parent node. -/
def parentNode : UInt32 := 4

/-- The mark of the root of the tree. -/
def rootNode : UInt32 := 8

/-- A compression that has not been run: its input, the sixteen message words, the chunk number, the
number of message bytes and the marks. -/
structure Node where
  input : Chain
  message : List UInt32
  counter : Nat
  length : Nat
  marks : UInt32

/-- The eight words that a node gives when further marks are set. -/
def Node.output (n : Node) (marks : UInt32) : Chain :=
  let s := rounds 7
    ⟨n.input.low, n.input.high, startLow,
      ⟨UInt32.ofNat n.counter, UInt32.ofNat (n.counter / UInt32.size), UInt32.ofNat n.length,
        n.marks ||| marks⟩⟩
    n.message
  ⟨s.a.zipWith (· ^^^ ·) s.c, s.b.zipWith (· ^^^ ·) s.d⟩

/-- The sixteen little-endian words of a block that is filled up with zeros. -/
def blockWords : (count : Nat) → Bytes → List UInt32
  | 0, _ => []
  | count + 1, bs =>
    UInt32.ofNat (Bytes.toNatLE (bs.take 4)) :: blockWords count (bs.drop 4)

/-- The last compression of a chunk, after the blocks before it have been run. -/
def chunkNode (counter : Nat) : (blocks : Nat) → (marks : UInt32) → Chain → Bytes → Node
  | 0, marks, input, bs => ⟨input, blockWords 16 bs, counter, bs.length, marks ||| chunkEnd⟩
  | blocks + 1, marks, input, bs =>
    if bs.length ≤ 64 then ⟨input, blockWords 16 bs, counter, bs.length, marks ||| chunkEnd⟩
    else
      let node : Node := ⟨input, blockWords 16 (bs.take 64), counter, 64, marks⟩
      chunkNode counter blocks 0 (node.output 0) (bs.drop 64)

/-- The nodes of the chunks of a message, numbered from `counter` on. -/
def chunkNodes : (chunks : Nat) → (counter : Nat) → Bytes → List Node
  | 0, _, _ => []
  | chunks + 1, counter, bs =>
    chunkNode counter 15 chunkStart start (bs.take 1024)
      :: chunkNodes chunks (counter + 1) (bs.drop 1024)

/-- The parent of two nodes. -/
def Node.join (l r : Node) : Node :=
  let left := l.output 0
  let right := r.output 0
  ⟨start, left.low.toList ++ left.high.toList ++ right.low.toList ++ right.high.toList, 0, 64,
    parentNode⟩

/-- The parents of consecutive pairs; a node left over stays. -/
def joinPairs : List Node → List Node
  | l :: r :: rest => l.join r :: joinPairs rest
  | rest => rest

/-- The top of the tree over some nodes, by at most `levels` steps upward. -/
def top : (levels : Nat) → List Node → Option Node
  | 0, nodes => nodes.head?
  | levels + 1, nodes => top levels (joinPairs nodes)

/-- The four bytes of a word, least significant first. -/
def wordBytes (w : UInt32) : Bytes := [w.toUInt8, (w >>> 8).toUInt8, (w >>> 16).toUInt8,
  (w >>> 24).toUInt8]

/-- The eight little-endian words of a chaining value. -/
def Chain.toWord (c : Chain) : Word :=
  ⟨wordBytes c.low.x ++ wordBytes c.low.y ++ wordBytes c.low.z ++ wordBytes c.low.w
    ++ wordBytes c.high.x ++ wordBytes c.high.y ++ wordBytes c.high.z ++ wordBytes c.high.w, rfl⟩

end Blake3

/-- The BLAKE3 digest of a byte string. -/
def blake3 (data : Bytes) : Word :=
  let nodes := Blake3.chunkNodes ((data.length - 1) / 1024 + 1) 0 data
  match Blake3.top nodes.length nodes with
  | some node => (node.output Blake3.rootNode).toWord
  | none => Word.ofNat 0

end TreeProver
