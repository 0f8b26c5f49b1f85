import SmallLisp.Config
import SmallLisp.Repl

/-! The interpreter as the command line uses it. Its state collects what is written; the steps of
the interactive loop are functions on it, so that the loop can be driven by a list of lines or by a
terminal. -/
namespace SmallLisp

/-- A running interpreter with what the interactive loop remembers: the inputs so far, if they are
to be kept in a file, and the text that waits for more lines. -/
structure Shell where
  config : Config
  session : Session
  history : Option Repl.History
  pending : Bytes

namespace Shell

def emit (sh : Shell) (e : Event) : Shell :=
  { sh with session := { sh.session with state := sh.session.state.emit e } }

def print (sh : Shell) (text : Bytes) : Shell := sh.emit (.output text)

/-- What has been written so far, the first first. -/
def events (sh : Shell) : List Event := sh.session.state.trace.reverse

def warn (sh : Shell) (text : Bytes) : Shell := sh.emit (.warning text)

/-- The surroundings of a program with this configuration. -/
def host (disk : Disk) (c : Config) : Host := ⟨disk, c.libPaths, false⟩

/-- A new interpreter with the libraries of the configuration, in its namespace. -/
def start (disk : Disk) (c : Config) : Answer Unit × Shell :=
  let line := Bytes.ofString "preload " ++ Bytes.join [32] c.preload ++
    Bytes.ofString " into namespace " ++ c.ns
  let s := Session.fresh
  let s := { s with state := s.state.log line }
  match s.loadLibraries (host disk c) c.preload with
  | (.value (), s) => (.value (), ⟨c, s.inNamespace c.ns, none, []⟩)
  | (r, s) => (r, ⟨c, s, none, []⟩)

/-- How a run goes on after a step: not yet at its end, at its end with this status, or waiting for
a file. -/
inductive Next
  | more
  | exit (status : Int)
  | unread (path : Bytes)

/-- Reports an error; an exit is no error but ends the run with its status. -/
def fail (sh : Shell) (e : Error) (otherwise : Next) : Next × Shell :=
  match e.root with
  | .exit code => (.exit code.toInt, sh)
  | .unread path => (.unread path, sh)
  | _ => (otherwise, sh.warn (e.report ++ [10]))

/-- Evaluates a text and writes its value. -/
def evalPrint (disk : Disk) (src : Bytes) (onValue onError : Next) (sh : Shell) : Next × Shell :=
  match sh.session.evalText (host disk sh.config) src with
  | (.value v, s) => (onValue, { sh with session := s }.print (v.render ++ [10]))
  | (.failure e, s) => { sh with session := s }.fail e onError
  | (.timeout, s) => (.exit 1, { sh with session := s })

def loadFiles (disk : Disk) : List Bytes → Shell → Next × Shell
  | [], sh => (.exit 0, sh)
  | path :: paths, sh =>
    match sh.session.loadFile (host disk sh.config) path with
    | (.value (), s) => loadFiles disk paths { sh with session := s }
    | (.failure e, s) => { sh with session := s }.fail e (.exit 1)
    | (.timeout, s) => (.exit 1, { sh with session := s })

def banner : Bytes := Bytes.ofString
  "flute REPL\nCtrl+C cancels input, Ctrl+D exits. Type :quit to exit.\n"

/-- The prompt for the next line. -/
def prompt (sh : Shell) : Bytes :=
  if sh.pending.isEmpty then sh.config.prompt else sh.config.continuation

/-- Begins the interactive loop with the inputs of earlier runs. -/
def greet (disk : Disk) (sh : Shell) : Next × Shell :=
  let sh := sh.print banner
  if sh.config.historyFile.isEmpty then (.more, sh)
  else match disk.look sh.config.historyFile with
    | none => (.unread sh.config.historyFile, sh)
    | some (.file contents) => (.more, { sh with history := some (Repl.History.ofFile contents) })
    | some _ => (.more, { sh with history := some [] })

/-- Writes the prompt, if it can be shown. -/
def ask (sh : Shell) : Option Shell :=
  if Repl.isPrompt sh.prompt then some (sh.print sh.prompt) else none

/-- A complete input. -/
def onInput (disk : Disk) (src : Bytes) (sh : Shell) : Next × Shell :=
  match Repl.Command.ofInput src with
  | .nothing => (.more, sh)
  | .quit => (.exit 0, sh)
  | .unknown => (.more, sh.print (Bytes.ofString "unknown command. Type :quit to exit.\n"))
  | .evaluate code =>
    evalPrint disk src .more .more { sh with history := sh.history.map fun h => h.add code }

/-- One more line of input. -/
def onLine (disk : Disk) (line : Bytes) (sh : Shell) : Next × Shell :=
  match Repl.addLine sh.pending line with
  | .waiting src => (.more, { sh with pending := src })
  | .complete src => onInput disk src { sh with pending := [] }

/-- The end of input. -/
def onEnd (sh : Shell) : Next × Shell := (.exit 0, sh.print [10])

/-- The interactive loop on given lines. -/
def loop (disk : Disk) : List Bytes → Shell → Next × Shell
  | lines, sh =>
    match lines, sh.ask with
    | _, none => sh.onEnd
    | [], some sh => sh.onEnd
    | line :: lines, some sh =>
      match onLine disk line sh with
      | (.more, sh) => loop disk lines sh
      | r => r

/-- The file in which the history is to be kept, with its contents. -/
def historyFile? (sh : Shell) : Option (Bytes × Bytes) :=
  sh.history.map fun h => (sh.config.historyFile, h.toFile)

end Shell
end SmallLisp
