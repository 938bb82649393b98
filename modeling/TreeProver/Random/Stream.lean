import TreeProver.Bytes

/-!
# A seeded random stream

Key generation and blinding draw from the ChaCha stream with twelve rounds. A `Stream` is a key, the
number of the next block and the words of the current block that are left; a draw takes words off
its front. Equal seeds give equal streams, which is what makes keys and proofs reproducible.
-/

namespace TreeProver

/-- A random stream. -/
structure Stream where
  /-- The eight words of the key. -/
  key : List UInt32
  /-- The number of the next block. -/
  block : UInt64
  /-- The words of the current block that are left. -/
  pending : List UInt32
  deriving DecidableEq

/-- A computation that draws from a stream. -/
abbrev Draw := StateM Stream

namespace Stream

/-- Rotation of a 32-bit word to the left. -/
def rotl (x : UInt32) (k : UInt32) : UInt32 := (x <<< k) ||| (x >>> (32 - k))

/-- One word of each row of the block state. -/
structure Column where
  a : UInt32
  b : UInt32
  c : UInt32
  d : UInt32
  deriving Inhabited

/-- Mixes the words of a column. -/
def Column.mix (s : Column) : Column :=
  let a := s.a + s.b
  let d := rotl (s.d ^^^ a) 16
  let c := s.c + d
  let b := rotl (s.b ^^^ c) 12
  let a := a + b
  let d := rotl (d ^^^ a) 8
  let c := c + d
  ⟨a, rotl (b ^^^ c) 7, c, d⟩

/-- The block state: four columns. -/
structure State where
  c0 : Column
  c1 : Column
  c2 : Column
  c3 : Column

namespace State

/-- Mixes every column. -/
def mix (s : State) : State := ⟨s.c0.mix, s.c1.mix, s.c2.mix, s.c3.mix⟩

/-- Moves the diagonals into the columns. -/
def skew (s : State) : State :=
  ⟨⟨s.c0.a, s.c1.b, s.c2.c, s.c3.d⟩, ⟨s.c1.a, s.c2.b, s.c3.c, s.c0.d⟩,
    ⟨s.c2.a, s.c3.b, s.c0.c, s.c1.d⟩, ⟨s.c3.a, s.c0.b, s.c1.c, s.c2.d⟩⟩

/-- Moves the columns back to the diagonals. -/
def unskew (s : State) : State :=
  ⟨⟨s.c0.a, s.c3.b, s.c2.c, s.c1.d⟩, ⟨s.c1.a, s.c0.b, s.c3.c, s.c2.d⟩,
    ⟨s.c2.a, s.c1.b, s.c0.c, s.c3.d⟩, ⟨s.c3.a, s.c2.b, s.c1.c, s.c0.d⟩⟩

/-- A number of double rounds: the columns, then the diagonals. -/
def rounds : (count : Nat) → State → State
  | 0, s => s
  | count + 1, s => rounds count s.mix.skew.mix.unskew

/-- The sixteen words, row by row. -/
def toList (s : State) : List UInt32 :=
  [s.c0.a, s.c1.a, s.c2.a, s.c3.a, s.c0.b, s.c1.b, s.c2.b, s.c3.b,
    s.c0.c, s.c1.c, s.c2.c, s.c3.c, s.c0.d, s.c1.d, s.c2.d, s.c3.d]

end State

/-- The state that a block starts from: four fixed words, the key and the block number. -/
def start (key : List UInt32) (block : UInt64) : State :=
  let k (i : Nat) : UInt32 := key.getD i 0
  ⟨⟨0x61707865, k 0, k 4, block.toUInt32⟩, ⟨0x3320646e, k 1, k 5, (block >>> 32).toUInt32⟩,
    ⟨0x79622d32, k 2, k 6, 0⟩, ⟨0x6b206574, k 3, k 7, 0⟩⟩

/-- The sixteen words of a block: twelve rounds, added to what they started from. -/
def blockWords (key : List UInt32) (block : UInt64) : List UInt32 :=
  let s := start key block
  List.zipWith (· + ·) (s.rounds 6).toList s.toList

/-- The stream whose key is spelled by 32 bytes, four to a word, least significant first. -/
def ofKey (seed : Bytes) : Stream :=
  ⟨(List.range 8).map fun i ↦ UInt32.ofNat (Bytes.toNatLE ((seed.drop (4 * i)).take 4)), 0, []⟩

/-- The state of the generator that spreads a small seed, one step on. -/
def spreadStep (state : UInt64) : UInt64 := state * 6364136223846793005 + 11634580027462260723

/-- The word that the spreading generator gives in a state. -/
def spreadWord (state : UInt64) : UInt32 :=
  let x := (((state >>> 18) ^^^ state) >>> 27).toUInt32
  let turn := (state >>> 59).toUInt32
  (x >>> turn) ||| (x <<< ((32 - turn) % 32))

/-- A number of words of the spreading generator. -/
def spread : (count : Nat) → (state : UInt64) → List UInt32
  | 0, _ => []
  | count + 1, state => spreadWord (spreadStep state) :: spread count (spreadStep state)

/-- The stream of a 64-bit seed. -/
def ofSeed (seed : UInt64) : Stream := ⟨spread 8 seed, 0, []⟩

/-- The next word. -/
def nextWord : Draw UInt32 := fun s ↦
  match s.pending with
  | w :: rest => (w, { s with pending := rest })
  | [] =>
    match blockWords s.key s.block with
    | w :: rest => (w, ⟨s.key, s.block + 1, rest⟩)
    | [] => (0, s)

/-- The number spelled by two words, the low one drawn first. -/
def nextDouble : Draw Nat := do
  let low ← nextWord
  let high ← nextWord
  pure (low.toNat + UInt32.size * high.toNat)

/-- The top bit of a word. -/
def nextBool : Draw Bool := do
  let w ← nextWord
  pure (decide (2 ^ (31 : Nat) ≤ w.toNat))

/-- A number of 254 bits: four 64-bit limbs, the low one first, of which the last loses its top two
bits. -/
def nextLimbs : Draw Nat := do
  let l0 ← nextDouble
  let l1 ← nextDouble
  let l2 ← nextDouble
  let l3 ← nextDouble
  pure (l0 + UInt64.size * (l1 + UInt64.size * (l2 + UInt64.size * (l3 % 2 ^ (62 : Nat)))))

end Stream

/-- Repeats a draw until it is accepted. A thousand refusals in a row do not happen: every draw here
is accepted with a chance of at least one in three. -/
def Draw.retry {α : Type} (draw : Draw (Option α)) (fallback : α) : (tries : Nat) → Draw α
  | 0 => pure fallback
  | tries + 1 => do
    match ← draw with
    | some value => pure value
    | none => retry draw fallback tries

end TreeProver
