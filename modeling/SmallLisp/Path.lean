import SmallLisp.Text.Bytes

/-! Paths with slashes, cleaned and joined by their text alone. -/
namespace SmallLisp.Path

def isAbsolute (p : Bytes) : Bool := p.head? == some 47

/-- One step of cleaning: `done` holds the parts kept so far, the last first. -/
private def visit (rooted : Bool) (done : List Bytes) (part : Bytes) : List Bytes :=
  if part.isEmpty || part == [46] then done
  else if part == [46, 46] then
    match done with
    | [] => if rooted then [] else [part]
    | last :: before => if last == [46, 46] then part :: done else before
  else part :: done

/-- The shortest path with the same meaning: no empty parts, no `.`, and `..` only at the front of
a relative path. -/
def clean (p : Bytes) : Bytes :=
  let rooted := isAbsolute p
  let body := Bytes.join [47] ((Bytes.cutByte 47 p).foldl (visit rooted) []).reverse
  if rooted then 47 :: body else if body.isEmpty then [46] else body

/-- The path `p` inside the directory `dir`. An empty part is left out. -/
def join (dir p : Bytes) : Bytes :=
  match dir, p with
  | [], [] => []
  | [], p => clean p
  | dir, [] => clean dir
  | dir, p => clean (dir ++ 47 :: p)

/-- The directory a path lies in: everything up to its last slash. -/
def parent (p : Bytes) : Bytes :=
  clean (p.reverse.dropWhile (· != 47)).reverse

end SmallLisp.Path
