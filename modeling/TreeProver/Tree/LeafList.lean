import TreeProver.Tree.Root
import TreeProver.Word.Hex

/-!
# Leaf lists

A leaf list is the witness for the root of a tree: all its leaves in order, which side by side are
the public input.
-/

namespace TreeProver

/-- The leaves of a tree. -/
structure LeafList where
  leaves : List Word
  deriving DecidableEq

namespace LeafList

/-- The public input that names the leaves. -/
def inputBytes (w : LeafList) : Bytes := w.leaves.flatMap Word.bytes

/-- The leaves, if they have been read. -/
structure Fields where
  leaves : Option (List Word)

/-- A leaf list in a JSON text. -/
def json : Json.Reader LeafList :=
  Json.record "ListWitness"
    [.kept "leaves" Fields.leaves (fun s x ↦ { s with leaves := some x }) Word.jsonList] ⟨none⟩
    fun s ↦ do .ok ⟨← Json.required "leaves" s.leaves⟩

/-- The leaf list that a JSON text holds. -/
def parse (text : String) : Except Error LeafList :=
  match Json.parse json text with
  | .ok w => .ok w
  | .error e => .error (.json .witness e.message)

end LeafList

end TreeProver
