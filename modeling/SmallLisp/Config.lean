import SmallLisp.Config.Yaml
import SmallLisp.Disk
import SmallLisp.Text.Quoted

/-! The configuration of the command line: read from a file on top of defaults, checked, and put
into normal form. -/
namespace SmallLisp

structure Config where
  prompt : Bytes
  continuation : Bytes
  historyFile : Bytes
  libPaths : List Bytes
  preload : List Bytes
  ns : Bytes
  debug : Bool
deriving DecidableEq

/-- Something in a configuration file that does not fit, with its line. -/
inductive Problem
  | unknownField (line : Nat) (name : Bytes)
  | duplicateKey (line : Nat) (name : Bytes) (first : Nat)
  | mismatch (line : Nat) (tag : Bytes) (value : Option Bytes) (target : Bytes)
deriving DecidableEq

/-- A value of a configuration that is not allowed. -/
inductive Issue
  | emptyPrompt
  | emptyNamespace
  | badNamespace (name : Bytes)
  | emptyPreload (index : Nat)
  | emptyLibPath (index : Nat)
deriving DecidableEq

inductive ConfigError
  | cannotOpen (path : Bytes) (reason : FileError)
  | cannotRead (path : Bytes) (reason : FileError)
  | notYaml (name : Bytes) (fault : Yaml.Fault)
  | badMerge (name : Bytes)
  | unfitting (name : Bytes) (problems : List Problem)
  | invalid (issues : List Issue)
  | unread (path : Bytes)
deriving DecidableEq

namespace Problem

/-- At most ten bytes of a value are shown. -/
private def excerpt (v : Bytes) : Bytes :=
  Bytes.ofString " `" ++ (if 10 < v.length then v.take 7 ++ Bytes.ofString "..." else v) ++ [96]

def message : Problem → Bytes
  | .unknownField line name =>
    Bytes.ofString "line " ++ Bytes.ofNat line ++ Bytes.ofString ": field " ++ name ++
      Bytes.ofString " not found in type config.Config"
  | .duplicateKey line name first =>
    Bytes.ofString "line " ++ Bytes.ofNat line ++ Bytes.ofString ": mapping key " ++
      Quoted.text name ++ Bytes.ofString " already defined at line " ++ Bytes.ofNat first
  | .mismatch line tag value target =>
    Bytes.ofString "line " ++ Bytes.ofNat line ++ Bytes.ofString ": cannot unmarshal " ++ tag ++
      (value.map excerpt).getD [] ++ Bytes.ofString " into " ++ target

end Problem

def Issue.message : Issue → Bytes
  | .emptyPrompt => Bytes.ofString "prompt must not be empty"
  | .emptyNamespace => Bytes.ofString "namespace must not be empty"
  | .badNamespace name =>
    Bytes.ofString "namespace " ++ Quoted.text name ++ Bytes.ofString " is not a valid name"
  | .emptyPreload i =>
    Bytes.ofString "preload[" ++ Bytes.ofNat i ++ Bytes.ofString "] must be a non-empty name"
  | .emptyLibPath i =>
    Bytes.ofString "lib_paths[" ++ Bytes.ofNat i ++ Bytes.ofString "] must be a non-empty path"

namespace ConfigError

private def parsing (name : Bytes) : Bytes :=
  Bytes.ofString "config: parse " ++ name ++ Bytes.ofString ": yaml: "

def message : ConfigError → Bytes
  | .cannotOpen path e =>
    Bytes.ofString "config: open " ++ path ++ Bytes.ofString ": " ++ e.message path
  | .cannotRead path e => parsing path ++ Bytes.ofString "input error: " ++ e.message path
  | .notYaml name fault => parsing name ++ fault.message
  | .badMerge name =>
    parsing name ++ Bytes.ofString "map merge requires map or sequence of maps as the value"
  | .unfitting name problems =>
    parsing name ++ Bytes.ofString "unmarshal errors:" ++
      problems.flatMap fun p => 10 :: 32 :: 32 :: p.message
  | .invalid issues =>
    Bytes.ofString "config validation failed:" ++
      issues.flatMap fun i => 10 :: 45 :: 32 :: i.message
  | .unread path => Bytes.ofString "unread file " ++ path

end ConfigError

namespace Config

def default : Config :=
  { prompt := Bytes.ofString "flute> "
    continuation := Bytes.ofString "...    "
    historyFile := Bytes.ofString ".flute_history"
    libPaths := []
    preload := [Bytes.ofString "core"]
    ns := Bytes.ofString "user"
    debug := false }

open Yaml (Node Tag)

/-- Decoding collects problems and goes on. Only merging what is no mapping ends it. -/
abbrev Decode (α : Type) := StateT (List Problem) Option α

private def report (p : Problem) : Decode Unit := modify (· ++ [p])

private def tagOf (plain : Bool) (text : Bytes) : Tag := if plain then Yaml.tagOf text else .str

/-- The text and line of a key; a key that is a collection has no text. -/
private def keyText : Node → Bytes × Nat
  | .scalar line _ text => (text, line)
  | .seq line _ => ([], line)
  | .map line _ => ([], line)

/-- Scalars are equal as keys if their texts are, and collections if they are of one kind. -/
private def sameKey : Node → Node → Bool
  | .scalar _ _ s, .scalar _ _ t => s == t
  | .seq .., .seq .. => true
  | .map .., .map .. => true
  | _, _ => false

/-- Each later key that is equal to an earlier one. -/
private def duplicates : List (Node × Node) → List Problem
  | [] => []
  | (key, _) :: rest =>
    (rest.filter fun e => sameKey key e.1).map
      (fun e => .duplicateKey (keyText e.1).2 (keyText e.1).1 (keyText key).2) ++ duplicates rest

/-- A node that is not of the expected shape. Equal keys of a mapping are reported in its place. -/
private def mismatch (target : String) : Node → Decode Unit
  | .scalar line plain text =>
    report (.mismatch line (tagOf plain text).name (some text) (Bytes.ofString target))
  | .seq line _ => report (.mismatch line (Bytes.ofString "!!seq") none (Bytes.ofString target))
  | .map line entries =>
    match duplicates entries with
    | [] => report (.mismatch line (Bytes.ofString "!!map") none (Bytes.ofString target))
    | ds => modify (· ++ ds)

/-- Any scalar but null is a string, as it is written. -/
private def string? (n : Node) : Decode (Option Bytes) := do
  match n with
  | .scalar _ plain text => return if tagOf plain text == .null then none else some text
  | n =>
    mismatch "string" n
    return none

private def isOneOf (words : List String) (text : Bytes) : Bool :=
  words.any fun w => Bytes.ofString w == text

/-- Besides the proper ones, some words count as truth values in place of a string. -/
private def bool? (n : Node) : Decode (Option Bool) := do
  match n with
  | .scalar line plain text =>
    match tagOf plain text with
    | .null => return none
    | .bool b => return some b
    | tag =>
      if tag == .str && isOneOf ["y", "Y", "yes", "Yes", "YES", "on", "On", "ON"] text then
        return some true
      else if tag == .str && isOneOf ["n", "N", "no", "No", "NO", "off", "Off", "OFF"] text then
        return some false
      else
        mismatch "bool" (.scalar line plain text)
        return none
  | n =>
    mismatch "bool" n
    return none

private def strings : List Node → Decode (List Bytes)
  | [] => return []
  | n :: ns => do
    let s ← string? n
    let rest ← strings ns
    return s.toList ++ rest

/-- A list of strings; null elements are left out and null itself is the empty list. -/
private def strings? (n : Node) : Decode (Option (List Bytes)) := do
  match n with
  | .seq _ items => return some (← strings items)
  | .scalar line plain text =>
    if tagOf plain text == .null then return some []
    else
      mismatch "[]string" (.scalar line plain text)
      return none
  | n =>
    mismatch "[]string" n
    return none

/-- One entry of the file. -/
private def setField (c : Config) (line : Nat) (name : Bytes) (n : Node) : Decode Config := do
  let is (s : String) : Bool := Bytes.ofString s == name
  if is "prompt" then return { c with prompt := (← string? n).getD c.prompt }
  else if is "continuation_prompt" then
    return { c with continuation := (← string? n).getD c.continuation }
  else if is "history_file" then return { c with historyFile := (← string? n).getD c.historyFile }
  else if is "lib_paths" then return { c with libPaths := (← strings? n).getD c.libPaths }
  else if is "preload" then return { c with preload := (← strings? n).getD c.preload }
  else if is "namespace" then return { c with ns := (← string? n).getD c.ns }
  else if is "debug" then return { c with debug := (← bool? n).getD c.debug }
  else
    report (.unknownField line name)
    return c

/-- Whether a key asks to merge other mappings into this one. -/
private def isMerge : Node → Bool
  | .scalar _ plain text => tagOf plain text == .merge
  | _ => false

/-- The entries of the mappings to merge. -/
private def merged : Node → Decode (List (List (Node × Node)))
  | .map _ entries => return [entries]
  | .seq _ items => items.mapM fun
    | .map _ entries => return entries
    | _ => failure
  | .scalar .. => failure

/-- Sets fields one by one, and keeps track of their names. Those in `taken` are left alone. -/
private def setFields (c : Config) (taken : List Bytes) :
    List (Node × Node) → Decode (Config × List Bytes)
  | [] => return (c, taken)
  | (k, v) :: entries => do
    if isMerge k then setFields c taken entries
    else match ← string? k with
      | none => setFields c taken entries
      | some name =>
        if taken.contains name then setFields c taken entries
        else
          let c ← setField c (keyText k).2 name v
          setFields c (name :: taken) entries

/-- The configuration that a mapping describes, on top of `c`. Merged mappings, at most `depth`
inside each other, set what is not set by then. -/
private def setMapping : Nat → Config → List Bytes → List (Node × Node) →
    Decode (Config × List Bytes)
  | 0, _, _, _ => failure
  | depth + 1, c, taken, entries => do
    match duplicates entries with
    | [] =>
      let (c, taken) ← setFields c taken entries
      match entries.reverse.find? fun e => isMerge e.1 with
      | none => return (c, taken)
      | some (_, node) =>
        (← merged node).foldlM (fun s es => setMapping depth s.1 s.2 es) (c, taken)
    | ds =>
      modify (· ++ ds)
      return (c, taken)

/-- The configuration that a document describes, on top of the defaults. -/
def ofNode (depth : Nat) (n : Node) : Decode Config := do
  match n with
  | .map _ entries => return (← setMapping depth default [] entries).1
  | .scalar line plain text =>
    if tagOf plain text == .null then return default
    else
      mismatch "config.Config" (.scalar line plain text)
      return default
  | n =>
    mismatch "config.Config" n
    return default

private def emptyAt (issue : Nat → Issue) : Nat → List Bytes → List Issue
  | _, [] => []
  | i, s :: ss => (if s.isEmpty then [issue i] else []) ++ emptyAt issue (i + 1) ss

/-- Everything that is not allowed in a configuration. -/
def issues (c : Config) : List Issue :=
  (if c.prompt.isEmpty then [.emptyPrompt] else []) ++
  (if c.ns.isEmpty then [.emptyNamespace]
   else if c.ns.any (Bytes.ofString "/ \t\n()").contains then [.badNamespace c.ns] else []) ++
  emptyAt .emptyPreload 0 c.preload ++ emptyAt .emptyLibPath 0 c.libPaths

/-- The libraries to load: `core` first and only once. -/
def normalPreload (names : List Bytes) : List Bytes :=
  Bytes.ofString "core" :: names.filter (· != Bytes.ofString "core")

/-- A missing continuation prompt is as wide as the prompt, and a relative history file lies in the
home directory, if there is one. -/
def normalize (home : Bytes) (c : Config) : Config :=
  { c with
    preload := normalPreload c.preload
    continuation :=
      if c.continuation.isEmpty then List.replicate c.prompt.length 32 else c.continuation
    historyFile :=
      if c.historyFile.isEmpty || Path.isAbsolute c.historyFile || home.isEmpty then c.historyFile
      else Path.join home c.historyFile }

/-- Reads a configuration; `name` is what the text is called in messages. -/
def parse (home text name : Bytes) : Except ConfigError Config :=
  match Yaml.parse text with
  | .error fault => .error (.notYaml name fault)
  | .ok node =>
    match (ofNode (text.length + 1) node).run [] with
    | none => .error (.badMerge name)
    | some (c, []) =>
      if c.issues.isEmpty then .ok (c.normalize home) else .error (.invalid c.issues)
    | some (_, problems) => .error (.unfitting name problems)

/-- Where the configuration is looked for, if there is a home directory. -/
def defaultPath (home : Bytes) : Bytes :=
  if home.isEmpty then [] else Path.join home (Bytes.ofString ".flute.yaml")

def load (disk : Disk) (home path : Bytes) : Except ConfigError Config :=
  match disk.look path with
  | none => .error (.unread path)
  | some (.file text) => parse home text path
  | some .directory => .error (.cannotRead path .isDirectory)
  | some (.unreadable e) | some (.absent e) => .error (.cannotOpen path e)

/-- The configuration in the home directory; without one, the defaults. -/
def loadDefault (disk : Disk) (home : Bytes) : Except ConfigError Config :=
  let defaults := parse home [] (Bytes.ofString "defaults")
  let path := defaultPath home
  if path.isEmpty then defaults
  else match load disk home path with
    | .error (.cannotOpen _ .missing) => defaults
    | r => r

end Config
end SmallLisp
