import CommandLang.Text.Cut

/-! The options of a command line. An argument that starts with two dashes names an option, whose
value stands behind an equals sign or in the next argument; one that starts with a single dash is a
row of short options; `--` ends the options; everything else is free. Arguments are read from left
to right and the first fault counts, but that an option comes twice is only noticed at the end. -/

namespace CommandLang.CommandLine

inductive Flag where
  | flatten | splitDevices | maxLength | maxInputLength | direction | ignoreErrors | actions | help
deriving DecidableEq, Repr

namespace Flag

def all : List Flag :=
  [flatten, splitDevices, maxLength, maxInputLength, direction, ignoreErrors, actions, help]

def name : Flag → String
  | flatten => "flatten"
  | splitDevices => "split-devices"
  | maxLength => "max-length"
  | maxInputLength => "max-input-length"
  | direction => "direction"
  | ignoreErrors => "ignore-errors"
  | actions => "actions"
  | help => "help"

def takesValue : Flag → Bool
  | maxLength | maxInputLength | direction => true
  | _ => false

def ofName? (name : String) : Option Flag :=
  if name = "h" then some help else all.find? (·.name = name)

end Flag

inductive OptionError where
  | unrecognized (name : String)
  | missingArgument (name : String)
  | unexpectedArgument (name : String)
  | repeated (name : String)
deriving DecidableEq, Repr

def OptionError.message : OptionError → String
  | unrecognized name => "Unrecognized option: '" ++ name ++ "'"
  | missingArgument name => "Argument to option '" ++ name ++ "' missing"
  | unexpectedArgument name => "Option '" ++ name ++ "' does not take an argument"
  | repeated name => "Option '" ++ name ++ "' given more than once"

/-- The options that were given, with their values, and the free arguments. -/
structure Arguments where
  given : List (Flag × Option String)
  free : List String
deriving DecidableEq, Repr

namespace Arguments

def has (a : Arguments) (flag : Flag) : Bool := a.given.any (·.1 = flag)

def value? (a : Arguments) (flag : Flag) : Option String :=
  (a.given.find? (·.1 = flag)).bind Prod.snd

inductive Reading where
  | free
  | endOfOptions
  | flags (flags : List Flag)
  | valued (flag : Flag) (value : String)
  /-- An option that was called `name`; its value is the next argument. -/
  | awaiting (flag : Flag) (name : String)

def readShort : List Char → Except OptionError (List Flag)
  | [] => .ok []
  | c :: rest =>
    if c = 'h' then do return .help :: (← readShort rest)
    else .error (.unrecognized (String.ofList [c]))

def readLong (text : List Char) : Except OptionError Reading :=
  let (name, value) := match Text.cutFirst '=' text with
    | some (name, value) => (String.ofList name, some (String.ofList value))
    | none => (String.ofList text, none)
  match Flag.ofName? name with
  | none => .error (.unrecognized name)
  | some flag =>
    match flag.takesValue, value with
    | true, some value => .ok (.valued flag value)
    | true, none => .ok (.awaiting flag name)
    | false, some _ => .error (.unexpectedArgument name)
    | false, none => .ok (.flags [flag])

def readArgument (argument : String) : Except OptionError Reading :=
  match argument.toList with
  | ['-', '-'] => .ok .endOfOptions
  | '-' :: '-' :: text => readLong text
  | '-' :: c :: rest => return .flags (← readShort (c :: rest))
  | _ => .ok .free

/-- Reads arguments, the first of which may be the value of an open option. -/
def readAll : (awaiting : Option (Flag × String)) → List String → Except OptionError Arguments
  | none, [] => .ok ⟨[], []⟩
  | some (_, name), [] => .error (.missingArgument name)
  | some (flag, _), value :: rest => do
    let a ← readAll none rest
    return { a with given := (flag, some value) :: a.given }
  | none, argument :: rest => do
    match ← readArgument argument with
    | .endOfOptions => return ⟨[], rest⟩
    | .free =>
      let a ← readAll none rest
      return { a with free := argument :: a.free }
    | .flags flags =>
      let a ← readAll none rest
      return { a with given := flags.map (·, none) ++ a.given }
    | .valued flag value =>
      let a ← readAll none rest
      return { a with given := (flag, some value) :: a.given }
    | .awaiting flag name => readAll (some (flag, name)) rest

def read (arguments : List String) : Except OptionError Arguments := do
  let a ← readAll none arguments
  match Flag.all.find? fun flag => 1 < (a.given.filter (·.1 = flag)).length with
  | some flag => .error (.repeated flag.name)
  | none => .ok a

end Arguments

def usage (program : String) : String :=
  "Usage: " ++ program ++ " [options] CATALOG\n" ++
  "\n" ++
  "Reads `sentence<TAB>program` lines from standard input and prints their\n" ++
  "action vectors.\n" ++
  "\n" ++
  "Options:\n" ++
  "        --flatten       Expand extensible and copy terminals into plain\n" ++
  "                        productions\n" ++
  "        --split-devices \n" ++
  "                        Spell functions as a device terminal followed by the\n" ++
  "                        function\n" ++
  "        --max-length N  Width of the action vectors\n" ++
  "        --max-input-length N\n" ++
  "                        Number of input positions a copied span may point at.\n" ++
  "                        Defaults to 60\n" ++
  "        --direction DIRECTION\n" ++
  "                        Order of the actions. Defaults to bottomup.\n" ++
  "                        Supported directions: bottomup, topdown, linear\n" ++
  "        --ignore-errors \n" ++
  "                        Reconstruct invalid action vectors as empty programs\n" ++
  "        --actions       Print the action id space and exit\n" ++
  "    -h, --help          Print this message\n"

end CommandLang.CommandLine
