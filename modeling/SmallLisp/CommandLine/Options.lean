import SmallLisp.Text.Quoted

/-! The options of the command line. -/
namespace SmallLisp

structure Options where
  configPath : Bytes
  debug : Bool
  expr : Bytes
  files : List Bytes

namespace Options

inductive Refusal
  | help
  | badSyntax (arg : Bytes)
  | undefined (name : Bytes)
  | noValue (name : Bytes)
  | notBool (value name : Bytes)

def Refusal.message : Refusal → Bytes
  | .help => []
  | .badSyntax arg => Bytes.ofString "bad flag syntax: " ++ arg ++ [10]
  | .undefined name => Bytes.ofString "flag provided but not defined: -" ++ name ++ [10]
  | .noValue name => Bytes.ofString "flag needs an argument: -" ++ name ++ [10]
  | .notBool value name =>
    Bytes.ofString "invalid boolean value " ++ Quoted.text value ++ Bytes.ofString " for -" ++
      name ++ Bytes.ofString ": parse error\n"

/-- Asking for help is no failure. -/
def Refusal.status : Refusal → Nat
  | .help => 0
  | _ => 2

def usage : Bytes :=
  Bytes.join [10] <|
    ["usage: flute [-config file] [-debug] [-e expr] [file ...]",
     "  -config string",
     "    \tconfiguration file (default $HOME/.flute.yaml)",
     "  -debug",
     "    \tlog evaluator diagnostics to stderr",
     "  -e expr",
     "    \tevaluate expr, print the result and exit",
     ""].map Bytes.ofString

private def bool? (s : Bytes) : Option Bool :=
  if ["1", "t", "T", "TRUE", "true", "True"].any fun w => Bytes.ofString w == s then some true
  else if ["0", "f", "F", "FALSE", "false", "False"].any fun w => Bytes.ofString w == s then
    some false
  else none

/-- The name of an option and the value after an equals sign, which cannot come first. -/
private def splitValue : Bytes → Bytes × Option Bytes
  | [] => ([], none)
  | b :: s =>
    let name := b :: s.takeWhile (· != 61)
    match s.dropWhile (· != 61) with
    | [] => (name, none)
    | _ :: value => (name, some value)

/-- What an argument is: an option with one or two dashes, the end of the options, or neither. -/
inductive Shape
  | plain
  | last
  | option (name : Bytes) (value : Option Bytes)
  | malformed

def Shape.of : Bytes → Shape
  | 45 :: b :: s =>
    if b == 45 && s.isEmpty then .last
    else
      let body := if b == 45 then s else b :: s
      if body.head? == some 45 || body.head? == some 61 then .malformed
      else
        let (name, value) := splitValue body
        .option name value
  | _ => .plain

/-- Options up to the first argument that is none; the rest are files. -/
def parse (o : Options) : List Bytes → Except Refusal Options
  | [] => .ok o
  | arg :: args =>
    match Shape.of arg with
    | .plain => .ok { o with files := arg :: args }
    | .last => .ok { o with files := args }
    | .malformed => .error (.badSyntax arg)
    | .option name value =>
      let is (s : String) : Bool := Bytes.ofString s == name
      if is "debug" then
        match value with
        | none => parse { o with debug := true } args
        | some v =>
          match bool? v with
          | some b => parse { o with debug := b } args
          | none => .error (.notBool v name)
      else if is "config" || is "e" then
        let set (v : Bytes) : Options :=
          if is "e" then { o with expr := v } else { o with configPath := v }
        match value, args with
        | some v, args => parse (set v) args
        | none, v :: args => parse (set v) args
        | none, [] => .error (.noValue name)
      else if is "h" || is "help" then .error .help
      else .error (.undefined name)

def ofArgs (args : List Bytes) : Except Refusal Options := parse ⟨[], false, [], []⟩ args

end Options
end SmallLisp
