import SmallLisp.CommandLine.Options
import SmallLisp.Shell

/-! The command line: what a run writes and how it ends. -/
namespace SmallLisp

/-- How a run ended: its status, what it wrote in order, whether log lines are shown, and a file to
write. -/
structure Completed where
  status : Int
  events : List Event
  showLog : Bool
  file : Option (Bytes × Bytes)

namespace Completed

def output (c : Completed) : Bytes := c.events.flatMap Event.printed

def diagnostics (c : Completed) : Bytes := c.events.flatMap (Event.reported c.showLog)

end Completed

namespace CommandLine

/-- The configuration that the options ask for. -/
def config (disk : Disk) (home : Bytes) (o : Options) : Except ConfigError Config :=
  if o.configPath.isEmpty then Config.loadDefault disk home else Config.load disk home o.configPath

/-- What there is to do once the interpreter is ready. -/
inductive Job
  | expression (src : Bytes)
  | files (paths : List Bytes)
  | interactive
deriving DecidableEq

def Job.of (o : Options) : Job :=
  if !o.expr.isEmpty then .expression o.expr
  else if !o.files.isEmpty then .files o.files
  else .interactive

/-- A run that is over before its job begins, one that is ready for it, or one that waits for a
file. -/
inductive Start
  | over (status : Int) (events : List Event) (showLog : Bool)
  | ready (sh : Shell) (job : Job) (showLog : Bool)
  | unread (path : Bytes)

/-- Options, configuration and libraries. -/
def start (disk : Disk) (home : Bytes) (args : List Bytes) : Start :=
  match Options.ofArgs args with
  | .error r => .over r.status [.warning (r.message ++ Options.usage)] false
  | .ok o =>
    match config disk home o with
    | .error (.unread path) => .unread path
    | .error e => .over 2 [.warning (e.message ++ [10])] false
    | .ok c =>
      let showLog := o.debug || c.debug
      match Shell.start disk c with
      | (.value (), sh) => .ready sh (Job.of o) showLog
      | (.failure e, sh) => .over 1 (sh.warn (e.message ++ [10])).events showLog
      | (.timeout, sh) => .over 1 sh.events showLog

/-- A job that needs no more input, or the beginning of the interactive loop. -/
def begin (disk : Disk) : Job → Shell → Shell.Next × Shell
  | .expression src, sh => sh.evalPrint disk src (.exit 0) (.exit 1)
  | .files paths, sh => sh.loadFiles disk paths
  | .interactive, sh => sh.greet disk

private def close (showLog : Bool) : Shell.Next × Shell → Except Bytes Completed
  | (.more, sh) => .ok ⟨0, sh.events, showLog, sh.historyFile?⟩
  | (.exit status, sh) => .ok ⟨status, sh.events, showLog, sh.historyFile?⟩
  | (.unread path, _) => .error path

/-- A whole run on given input. It stops at the first file whose contents are not known and asks
for it. -/
def run (disk : Disk) (home : Bytes) (args : List Bytes) (stdin : Bytes) : Except Bytes Completed :=
  match start disk home args with
  | .unread path => .error path
  | .over status events showLog => .ok ⟨status, events, showLog, none⟩
  | .ready sh job showLog =>
    match begin disk job sh with
    | (.more, sh) => close showLog (sh.loop disk ((Repl.Line.ofText stdin).map Repl.Line.text))
    | r => close showLog r

end CommandLine
end SmallLisp
