import TreeProver.Tree.Path
import TreeProver.Word.Hex

/-!
# Inclusion witnesses

An inclusion witness claims that a leaf sits below a root at a generalized index, and carries the
path that shows it. The root and the index are the public input of the claim.
-/

namespace TreeProver

/-- A leaf, its index and its path under a claimed root. -/
structure Inclusion where
  root : Word
  leaf : Word
  gindex : UInt64
  path : List Word
  deriving DecidableEq

namespace Inclusion

/-- The number of bytes of the public input. -/
def inputSize : Nat := Word.size + Gindex.size

/-- The public input that names a root and an index. -/
def encodeInput (root : Word) (gindex : UInt64) : Bytes := root.bytes ++ Gindex.encode gindex

/-- The witness for a leaf of the perfect tree over the given leaves. -/
def ofLeaves (leaves : List Word) (index : UInt64) : Except Tree.Failure Inclusion := do
  let (path, gindex) ← Tree.path leaves index
  let root ← (Tree.root leaves).mapError .refused
  let leaf ← Tree.orAbort .outOfRange leaves[index.toNat]?
  .ok ⟨root, leaf, gindex, path⟩

/-- Whether the path leads from the leaf to the root. -/
def isConsistent (w : Inclusion) : Bool :=
  (Gindex.check w.gindex w.path.length).isOk && Tree.restore w.leaf w.path w.gindex = w.root

/-- A witness is consistent when its index is accepted and its path restores its root. -/
theorem isConsistent_iff (w : Inclusion) : w.isConsistent = true ↔
    (Gindex.check w.gindex w.path.length).isOk = true
      ∧ w.root = Tree.restore w.leaf w.path w.gindex := by
  rw [isConsistent, Bool.and_eq_true, decide_eq_true_eq]
  exact and_congr_right fun _ ↦ eq_comm

/-- The public input of a witness. -/
def inputBytes (w : Inclusion) : Bytes := encodeInput w.root w.gindex

/-- The fields of a witness that have been read. -/
structure Fields where
  root : Option Word
  leaf : Option Word
  gindex : Option UInt64
  path : Option (List Word)

/-- The fields of a witness in order. -/
def slots : List (Json.Slot Fields) :=
  [.kept "root" Fields.root (fun s x ↦ { s with root := some x }) Word.json,
    .kept "leaf" Fields.leaf (fun s x ↦ { s with leaf := some x }) Word.json,
    .kept "gindex" Fields.gindex (fun s x ↦ { s with gindex := some x }) Json.uint64,
    .kept "proof" Fields.path (fun s x ↦ { s with path := some x }) Word.jsonList]

/-- The witness with the given fields, none of which may be missing. -/
def ofFields (s : Fields) : Except Json.Fault Inclusion := do
  let root ← Json.required "root" s.root
  let leaf ← Json.required "leaf" s.leaf
  let gindex ← Json.required "gindex" s.gindex
  let path ← Json.required "proof" s.path
  .ok ⟨root, leaf, gindex, path⟩

/-- A witness in a JSON text. -/
def json : Json.Reader Inclusion :=
  Json.record "InclusionWitness" slots ⟨none, none, none, none⟩ ofFields

/-- The witness that a JSON text holds. -/
def parse (text : String) : Except Error Inclusion :=
  match Json.parse json text with
  | .ok w => .ok w
  | .error e => .error (.json .witness e.message)

/-- The JSON form of a witness. -/
def toJson (w : Inclusion) : Json :=
  .object
    [("root", w.root.toJson), ("leaf", w.leaf.toJson), ("gindex", .number w.gindex.toNat),
      ("proof", .list (w.path.map Word.toJson))]

/-- The JSON text of a witness. -/
def format (w : Inclusion) : String := w.toJson.pretty

end Inclusion

end TreeProver
