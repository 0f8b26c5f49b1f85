import SmallLisp.CommandLine

/-! The program: it reads files when a step of the run asks for them, writes what a step has
written, and drives the interactive loop from standard input. All decisions are in
`SmallLisp.CommandLine`. -/
namespace SmallLisp.Main

def text (b : Bytes) : Option String := String.fromUTF8? ⟨b.toArray⟩

def bytes (s : String) : Bytes := s.toUTF8.toList

/-- What stands at a path of the file system. -/
def look (path : Bytes) : IO Entry := do
  if path.contains 0 then return .absent .invalid
  let some name := text path | return .absent .missing
  try
    return .file (← IO.FS.readBinFile name).toList
  catch
    | .permissionDenied .. => return .unreadable .denied
    | .inappropriateType _ 21 _ => return .directory
    | .inappropriateType .. => return .absent .notDirectory
    | .invalidArgument .. => return .absent .tooLong
    | _ => return .absent .missing

/-- The files read during one step. -/
def diskOf (known : List (Bytes × Entry)) : Disk := ⟨fun path => known.lookup path⟩

/-- Repeats a step with one more file each time that it asks for one. A step has no effect of its
own, so that only its last run counts. -/
partial def settle {α : Type} (asks : α → Option Bytes) (step : Disk → α)
    (known : List (Bytes × Entry)) : IO α := do
  let r := step (diskOf known)
  match asks r with
  | none => return r
  | some path => settle asks step ((path, ← look path) :: known)

/-- Writes events in order. -/
def write (showLog : Bool) (events : List Event) : IO Unit := do
  let stdout ← IO.getStdout
  let stderr ← IO.getStderr
  for e in events do
    stdout.write ⟨e.printed.toArray⟩
    stderr.write ⟨(e.reported showLog).toArray⟩
  stdout.flush
  stderr.flush

/-- Writes what a shell has written and forgets it. -/
def flush (showLog : Bool) (sh : Shell) : IO Shell := do
  let (events, session) := sh.session.takeTrace
  write showLog events
  return { sh with session := session }

def stepShell (showLog : Bool) (step : Disk → Shell.Next × Shell) : IO (Shell.Next × Shell) := do
  let asks : Shell.Next × Shell → Option Bytes
    | (.unread path, _) => some path
    | _ => none
  let (next, sh) ← settle asks step []
  return (next, ← flush showLog sh)

/-- The next line with its newline, or what is left of the input. -/
partial def readLine (stdin : IO.FS.Stream) (seen : Bytes) : IO Bytes := do
  match (← stdin.read 1).toList with
  | [] => return seen.reverse
  | b :: _ => if b == 10 then return (b :: seen).reverse else readLine stdin (b :: seen)

partial def interact (showLog : Bool) (queue : List Repl.Line) (sh : Shell) : IO (Int × Shell) := do
  let ended (sh : Shell) : IO (Int × Shell) := do
    let (_, sh) ← stepShell showLog fun _ => sh.onEnd
    return (0, sh)
  match sh.ask with
  | none => ended sh
  | some sh =>
    let sh ← flush showLog sh
    let queue ←
      if queue.isEmpty then Repl.Line.ofText <$> readLine (← IO.getStdin) [] else pure queue
    match queue with
    | [] => ended sh
    | line :: queue =>
      match ← stepShell showLog fun disk => sh.onLine disk line.text with
      | (.exit status, sh) => return (status, sh)
      | (_, sh) => interact showLog queue sh

/-- Keeps the history, where that is possible. -/
def keepHistory (sh : Shell) : IO Unit := do
  if let some (path, contents) := sh.historyFile? then
    if let some name := text path then
      try IO.FS.writeBinFile name ⟨contents.toArray⟩ catch _ => pure ()

def exitCode (status : Int) : UInt32 := UInt32.ofNat (status.emod 256).toNat

end SmallLisp.Main

open SmallLisp in
def main (args : List String) : IO UInt32 := do
  let home := Main.bytes ((← IO.getEnv "HOME").getD "")
  let asks : CommandLine.Start → Option Bytes
    | .unread path => some path
    | _ => none
  match ← Main.settle asks (fun disk => CommandLine.start disk home (args.map Main.bytes)) [] with
  | .unread _ => return 1
  | .over status events showLog =>
    Main.write showLog events
    return Main.exitCode status
  | .ready sh job showLog =>
    let sh ← Main.flush showLog sh
    match ← Main.stepShell showLog fun disk => CommandLine.begin disk job sh with
    | (.more, sh) =>
      let (status, sh) ← Main.interact showLog [] sh
      Main.keepHistory sh
      return Main.exitCode status
    | (.exit status, _) => return Main.exitCode status
    | (.unread _, _) => return 1
