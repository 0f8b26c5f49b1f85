import SmallLisp.Eval.Call

/-! Files. A relative path is taken from the directory of the file being loaded. -/
namespace SmallLisp

/-- A path as seen from the file being loaded. -/
def State.resolvePath (s : State) (path : Bytes) : Bytes :=
  match s.dirs with
  | [] => path
  | dir :: _ => if Path.isAbsolute path then path else Path.join dir path

def Host.look (host : Host) (path : Bytes) : Action Entry :=
  match host.disk.look path with
  | some e => return e
  | none => Action.fail (.unread path)

/-- The first path at which there is a file, with its contents if it can be read. -/
def firstFile (host : Host) : List Bytes → Action (Option (Bytes × Except FileError Bytes))
  | [] => return none
  | path :: paths => do
    let e ← host.look path
    if e.isFile then return some (path, e.read) else firstFile host paths

/-- All forms as one. -/
def sequenceOf (forms : List Term) : Term := .list (.sym "do" :: forms)

/-- Evaluates the forms of a text as one form. -/
def loadText (ev : Evaluate) (src : Bytes) (env : Env) : Action Term :=
  match parse src with
  | .error e => Action.fail (.ofParse e)
  | .ok forms => ev.value (sequenceOf forms) env

/-- The forms in a file that has been found. -/
def fileForms (file : Bytes) : Except FileError Bytes → Except Error (List Term)
  | .error reason => .error (.during (Bytes.ofString "read " ++ file) (.unreadable file reason))
  | .ok contents => (parse contents).mapError .ofParse

/-- Evaluates the forms of the file that was found as one form, with its directory on top of the
stack; nothing is evaluated unless all of it can be read. -/
def loadFound (ev : Evaluate) (path : Bytes) (env : Env)
    (found : Option (Bytes × Except FileError Bytes)) : Action Term :=
  let label := Bytes.ofString "load " ++ path
  match found with
  | none => Action.fail (.during label .fileMissing)
  | some (file, contents) =>
    match fileForms file contents with
    | .error e => Action.fail (.during label e)
    | .ok forms => do
      Action.update fun s => s.log (Bytes.ofString "load " ++ file)
      Action.inDirectory (Path.parent file) (ev.value (sequenceOf forms) env)

/-- Loads a file, which is searched for next to the loading file and then in the directories for
libraries. -/
def loadFile (host : Host) (ev : Evaluate) (path : Bytes) (env : Env) : Action Term := do
  let here ← Action.read fun s => s.resolvePath path
  let elsewhere := if Path.isAbsolute path then [] else host.libPaths.map (Path.join · path)
  let found ← firstFile host (here :: elsewhere)
  loadFound ev path env found

/-- The contents of a file, or nil and a warning. -/
def readFile (host : Host) (path : Bytes) : Action Term := do
  let file ← Action.read fun s => s.resolvePath path
  match (← host.look file).read with
  | .ok contents => return .string contents
  | .error e =>
    let text := Bytes.ofString "warning: slurp: " ++ e.message file ++ [10]
    Action.update fun s => s.emit (.warning text)
    return .nil

end SmallLisp
