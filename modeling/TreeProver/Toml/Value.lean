/-!
# TOML values

A document is a table of named values. Tables remember how they came about, because that decides
what may still be added to them: a table opened by its own header is complete, one that was only
passed through on the way to another header may still be opened, one made by a dotted key grows by
dotted keys only, and one written inline does not grow at all.
-/

namespace TreeProver.Toml

/-- How a table came about. -/
inductive Origin where
  /-- By a header of its own. -/
  | header
  /-- On the way to another header. -/
  | implied
  /-- By a dotted key. -/
  | dotted
  /-- Between braces. -/
  | braces
  deriving DecidableEq, Repr

/-- A value of a document. -/
inductive Value where
  | text (s : String)
  | integer (n : Int)
  /-- A number that is not an integer. -/
  | real
  | boolean (b : Bool)
  /-- A date, a time or both. -/
  | moment
  | array (xs : List Value)
  | table (origin : Origin) (fields : List (String × Value))
  /-- Tables under one header that stands before each of them. -/
  | tables (xs : List (List (String × Value)))

/-- Named values. -/
abbrev Fields := List (String × Value)

namespace Fields

/-- The fields with one of them set. -/
def set (fields : Fields) (key : String) (v : Value) : Fields :=
  (key, v) :: fields.filter fun f ↦ f.1 ≠ key

/-- Changes the table at the end of a path. Tables that are missing on the way are made; `dotted`
says whether the path is that of a dotted key. -/
def change (dotted : Bool) (f : Origin → Fields → Option Fields) :
    (path : List String) → Origin → Fields → Option Fields
  | [], origin, fields => f origin fields
  | key :: path, _, fields =>
    match fields.lookup key with
    | none => do
      let made : Origin := if dotted then .dotted else .implied
      some (fields.set key (.table made (← change dotted f path made [])))
    | some (.table origin inner) =>
      if origin = .braces ∨ (dotted ∧ origin = .header) then none
      else do some (fields.set key (.table origin (← change dotted f path origin inner)))
    | some (.tables xs) =>
      match xs.getLast? with
      | none => none
      | some inner => do
        let inner ← change dotted f path .header inner
        some (fields.set key (.tables (xs.dropLast ++ [inner])))
    | some _ => none

/-- Adds a value under a dotted key, which has to be new. The last table on the way has to be the
one that the key starts from or one that a dotted key has made. -/
def add (fields : Fields) (path : List String) (key : String) (v : Value) : Option Fields :=
  change true (fun origin inner ↦
    if path.isEmpty = (origin = .dotted) then none
    else if (inner.lookup key).isSome then none
    else some (inner.set key v)) path .header fields

end Fields

/-- A document that is being read: the finished tables, and the one that is being filled. -/
structure Draft where
  finished : Fields
  /-- The header of the table that is being filled; nothing for the root. -/
  header : List String
  /-- Whether the table is one of several under its header. -/
  isElement : Bool
  current : Fields

namespace Draft

/-- Nothing read yet. -/
def empty : Draft := ⟨[], [], false, []⟩

/-- Puts the table that is being filled among the finished ones. -/
def finish (d : Draft) : Option Fields :=
  match d.header.getLast? with
  | none => some d.current
  | some key =>
    Fields.change false (fun _ inner ↦
      if d.isElement then
        match inner.lookup key with
        | none => some (inner.set key (.tables [d.current]))
        | some (.tables xs) => some (inner.set key (.tables (xs ++ [d.current])))
        | some _ => none
      else some (inner.set key (.table .header d.current))) d.header.dropLast .header d.finished

/-- What stands under a header so far: nothing yet, or a value. No header leads through values that
are not tables. -/
def under? (fields : Fields) : List String → Option (Option Value)
  | [] => none
  | [key] => some (fields.lookup key)
  | key :: path =>
    match fields.lookup key with
    | none => some none
    | some (.table origin inner) => if origin = .braces then none else under? inner path
    | some (.tables xs) =>
      match xs.getLast? with
      | some inner => under? inner path
      | none => none
    | some _ => none

/-- Opens a table. It may have been passed through before, but not made in another way. -/
def openTable (d : Draft) (header : List String) : Option Draft := do
  let finished ← d.finish
  match ← under? finished header with
  | none => some ⟨finished, header, false, []⟩
  | some (.table .implied inner) => some ⟨finished, header, false, inner⟩
  | some _ => none

/-- Opens one more table under a header of several. -/
def openElement (d : Draft) (header : List String) : Option Draft := do
  let finished ← d.finish
  match ← under? finished header with
  | none | some (.tables _) => some ⟨finished, header, true, []⟩
  | some _ => none

/-- Adds a value to the table that is being filled. -/
def add (d : Draft) (path : List String) (key : String) (v : Value) : Option Draft := do
  some { d with current := ← d.current.add path key v }

end Draft

end TreeProver.Toml
