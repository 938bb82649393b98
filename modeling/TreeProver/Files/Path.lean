import TreeProver.Bytes

/-!
# Paths

A path is the text of a place in a file tree: names with slashes between them. Empty names and
single dots say nothing, except a dot in front; two dots lead to the directory above.
-/

namespace TreeProver

/-- The text of a place in a file tree. -/
abbrev Path := String

namespace Path

/-- The texts between slashes. -/
def segments (p : Path) : List String := (p.toList.splitOn '/').map String.ofList

/-- Whether a path starts from the root. -/
def isAbsolute (p : Path) : Bool := p.startsWith "/"

/-- Whether a segment leads nowhere. -/
def isIdle (s : String) : Bool := s = "" || s = "."

/-- The number of segments in front that are kept even if they lead nowhere: the root, or a dot. -/
def fixedSegments (p : Path) : Nat :=
  match p.segments with
  | "" :: _ :: _ => 1
  | "." :: _ => 1
  | _ => 0

/-- Segments without idle ones at their end, of which the first `fixed` stay. -/
def trimEnd (fixed : Nat) (segments : List String) : List String :=
  segments.take fixed ++ ((segments.drop fixed).reverse.dropWhile isIdle).reverse

/-- The text of segments. -/
def ofSegments (p : Path) (segments : List String) : Path :=
  if p.isAbsolute ∧ segments.length = 1 then "/" else "/".intercalate segments

/-- The place above, unless the path is empty or the root. -/
def parent? (p : Path) : Option Path :=
  let fixed := p.fixedSegments
  let trimmed := trimEnd fixed p.segments
  if trimmed.length = fixed then
    if fixed = 0 ∨ p.isAbsolute then none else some ""
  else some (ofSegments p (trimEnd fixed trimmed.dropLast))

/-- The name at the end of a path, if it is a name. -/
def fileName? (p : Path) : Option String :=
  let fixed := p.fixedSegments
  let trimmed := trimEnd fixed p.segments
  if trimmed.length = fixed then none
  else
    match trimmed.getLast? with
    | some ".." | none => none
    | some name => some name

/-- A path behind another one; a path from the root stays what it is. -/
def join (p q : Path) : Path :=
  if q.isAbsolute then q
  else if p = "" ∨ p.endsWith "/" then p ++ q
  else p ++ "/" ++ q

/-- The path with another name at its end; a path that does not end in a name gets one behind. -/
def withFileName (p : Path) (name : String) : Path :=
  match p.fileName?, p.parent? with
  | some _, some parent => parent.join name
  | _, _ => p.join name

end Path

end TreeProver
