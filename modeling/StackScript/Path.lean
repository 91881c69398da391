/-! # Slash-separated paths

Lexical operations on slash-separated file paths: whether a path is absolute, cleaning it to
the shortest equivalent form (no repeated slashes, no `.` parts, no `..` that a part before it
cancels, no `..` right under the root), joining, and splitting off the directory, the last
part and its extension.
-/

namespace StackScript

namespace Path

/-- Whether a path starts at the root. -/
def isAbs (p : String) : Bool := p.startsWith "/"

/-- Resolves the parts of a path against the parts kept so far (in reverse). -/
def resolve (rooted : Bool) : List String → List String → List String
  | acc, [] => acc
  | acc, part :: rest =>
    if part.isEmpty || part == "." then resolve rooted acc rest
    else if part == ".." then
      match acc with
      | top :: below => if top == ".." then resolve rooted (part :: acc) rest else resolve rooted below rest
      | [] => if rooted then resolve rooted [] rest else resolve rooted [part] rest
    else resolve rooted (part :: acc) rest

/-- The shortest path naming the same file by lexical processing alone; `.` for an empty
result. -/
def clean (p : String) : String :=
  let rooted := isAbs p
  let parts := (resolve rooted [] (p.splitOn "/")).reverse
  let body := "/".intercalate parts
  if rooted then "/" ++ body
  else if body.isEmpty then "." else body

/-- Joins two paths and cleans the result; an empty part is left out. -/
def join (a b : String) : String :=
  if a.isEmpty then (if b.isEmpty then "" else clean b)
  else if b.isEmpty then clean a
  else clean (a ++ "/" ++ b)

/-- Everything up to the last slash, cleaned; `.` when there is no slash. -/
def dir (p : String) : String :=
  let parts := p.splitOn "/"
  if parts.length ≤ 1 then "."
  else
    let d := "/".intercalate parts.dropLast
    clean (if d.isEmpty then "/" else d)

/-- The part after the last slash. -/
def base (p : String) : String := (p.splitOn "/").getLastD p

/-- The extension of the last part: from its last dot on, or empty. -/
def ext (p : String) : String :=
  let b := base p
  match (b.splitOn ".") with
  | [_] | [] => ""
  | parts => "." ++ parts.getLastD ""

end Path

end StackScript
