import SmallLisp.Path

/-! What programs see of the file system: a fixed set of files below a working directory, all of
which can be read. -/
namespace SmallLisp

inductive FileError
  | missing
  | notDirectory
  | isDirectory
  | invalid
  | tooLong
  | denied
deriving DecidableEq

/-- The wording of a file error, with the path as it was given. -/
def FileError.message (path : Bytes) : FileError → Bytes
  | .missing => Bytes.ofString "open " ++ path ++ Bytes.ofString ": no such file or directory"
  | .notDirectory => Bytes.ofString "open " ++ path ++ Bytes.ofString ": not a directory"
  | .isDirectory => Bytes.ofString "read " ++ path ++ Bytes.ofString ": is a directory"
  | .invalid => Bytes.ofString "open " ++ path ++ Bytes.ofString ": invalid argument"
  | .tooLong => Bytes.ofString "open " ++ path ++ Bytes.ofString ": file name too long"
  | .denied => Bytes.ofString "open " ++ path ++ Bytes.ofString ": permission denied"

/-- What stands at a path. -/
inductive Entry
  | file (contents : Bytes)
  | unreadable (reason : FileError)
  | directory
  | absent (reason : FileError)
deriving DecidableEq

namespace Entry

/-- There is a file, whether it can be read or not. -/
def isFile : Entry → Bool
  | .file _ | .unreadable _ => true
  | .directory | .absent _ => false

/-- What comes of reading at the path. -/
def read : Entry → Except FileError Bytes
  | .file contents => .ok contents
  | .unreadable reason | .absent reason => .error reason
  | .directory => .error .isDirectory

end Entry

/-- Files by path. `none` means that nothing is known of the path yet. -/
structure Disk where
  look : Bytes → Option Entry

/-- Files and directories by the parts of their paths, below one working directory. -/
structure Tree where
  files : List (List Bytes × Bytes)
  directories : List (List Bytes)

namespace Tree

private def parts (path : Bytes) : List Bytes :=
  (Bytes.cutByte 47 path).filter fun p => !p.isEmpty && p != [46]

/-- Files at these paths, with the directories that they need. -/
def ofFiles (files : List (Bytes × Bytes)) (directories : List Bytes) : Tree :=
  { files := files.map fun f => (parts f.1, f.2)
    directories := directories.map parts }

def isDirectory (t : Tree) (p : List Bytes) : Bool :=
  t.directories.any (p.isPrefixOf ·) || t.files.any fun f => p.isPrefixOf f.1 && p != f.1

def contents? (t : Tree) (p : List Bytes) : Option Bytes := t.files.lookup p

/-- Where a walk has come to: inside the tree, with the parts in reverse, or so many levels above
it. -/
inductive Place
  | inside (reversed : List Bytes)
  | above (levels : Nat)

/-- The most bytes that one part of a path may have. -/
def partLimit : Nat := 255

/-- The least number of bytes that is too much for a whole path. -/
def pathLimit : Nat := 4096

/-- Why a part is not found in a directory that does not have it. -/
private def notFound (part : Bytes) : FileError :=
  if partLimit < part.length then .tooLong else .missing

/-- One part of a path, from a directory. -/
private def step (t : Tree) : Place → Bytes → Except FileError Place
  | .above n, part => if part == [46, 46] then .ok (.above (n + 1)) else .error (notFound part)
  | .inside here, part =>
    if (t.contents? here.reverse).isSome then .error .notDirectory
    else if !here.isEmpty && !t.isDirectory here.reverse then .error .missing
    else if part == [46, 46] then
      match here with
      | [] => .ok (.above 0)
      | _ :: up => .ok (.inside up)
    else if partLimit < part.length then .error .tooLong
    else .ok (.inside (part :: here))

/-- What a relative path leads to, when each part before the last must be a directory. A slash at
the end asks for a directory. -/
def lookRelative (t : Tree) (path : Bytes) : Entry :=
  match (parts path).foldlM (step t) (Place.inside []) with
  | .error e => .absent e
  | .ok (.above _) => .directory
  | .ok (.inside here) =>
    let p := here.reverse
    match t.contents? p with
    | some c =>
      if path.getLast? == some 47 || (Bytes.ofString "/.").isPrefixOf (path.drop (path.length - 2))
      then .absent .notDirectory
      else .file c
    | none => if p.isEmpty || t.isDirectory p then .directory else .absent .missing

/-- Nothing but the root itself is known outside of the working directory. -/
def look (t : Tree) (path : Bytes) : Entry :=
  if path.contains 0 then .absent .invalid
  else if path.isEmpty then .absent .missing
  else if pathLimit ≤ path.length then .absent .tooLong
  else if Path.isAbsolute path then
    match parts path with
    | [] => .directory
    | part :: _ => .absent (notFound part)
  else t.lookRelative path

/-- A disk on which everything is known. -/
def disk (t : Tree) : Disk := ⟨fun path => some (t.look path)⟩

/-- The tree after writing a file, where that is possible: its directory must exist, and it must
not be a directory itself. -/
def write (t : Tree) (path contents : Bytes) : Tree :=
  let p := parts (Path.clean path)
  match t.look path, t.look (Path.parent path) with
  | .directory, _ | .unreadable _, _ => t
  | .file _, _ => { t with files := t.files.map fun f => if f.1 == p then (p, contents) else f }
  | .absent .missing, .directory =>
    if Path.isAbsolute path then t else { t with files := t.files ++ [(p, contents)] }
  | .absent _, _ => t

end Tree
end SmallLisp
