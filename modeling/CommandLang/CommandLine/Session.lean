import CommandLang.CommandLine.Options
import CommandLang.Schema.CatalogText
import CommandLang.Text.Lines
import CommandLang.Vector.Decode
import CommandLang.Vector.Prediction

/-! What the program prints. The command line names a catalog, from which a codec is made; then each
line of the input, a sentence and a program with a tab between them, is answered with the vectors of
the program and what is read back from them. -/

namespace CommandLang.CommandLine

/-- Everything that a run or a part of it prints, and the exit code. -/
structure Outcome where
  code : Nat
  out : String
  err : String
deriving DecidableEq, Repr

namespace Outcome

def fail (message : String) : Outcome := ⟨1, "", message ++ "\n"⟩

/-- One part after another; the code is that of the last part. -/
def andThen (first second : Outcome) : Outcome :=
  ⟨second.code, first.out ++ second.out, first.err ++ second.err⟩

end Outcome

inductive FileFault where
  | missing
  | directory
  /-- A part of the path that has to be a directory is none. -/
  | notDirectory
  /-- The path, or a name in it, is longer than the system admits. -/
  | nameTooLong
  | other (text : String)
deriving DecidableEq, Repr

def FileFault.message : FileFault → String
  | missing => "No such file or directory (os error 2)"
  | directory => "Is a directory (os error 21)"
  | notDirectory => "Not a directory (os error 20)"
  | nameTooLong => "File name too long (os error 36)"
  | other text => text

def invalidText : String := "stream did not contain valid UTF-8"

structure Task where
  path : String
  splitDevices : Bool
  config : CodecConfig
  /-- Whether the actions are listed and nothing else is done. -/
  listActions : Bool
deriving DecidableEq, Repr

namespace Task

def readDirection : Option String → Except Outcome Direction
  | none | some "bottomup" => .ok (.derivation .bottomUp)
  | some "topdown" => .ok (.derivation .topDown)
  | some "linear" => .ok .linear
  | some other => .error (.fail ("unsupported direction: " ++ other))

def readNumber (a : Arguments) (flag : Flag) : Except Outcome (Option Nat) :=
  match a.value? flag with
  | none => .ok none
  | some text =>
    match Text.readNumber text.toList with
    | some number => .ok (some number)
    | none => .error (.fail ("--" ++ flag.name ++ " expects a number, got " ++ text))

def ofArguments (program : String) (a : Arguments) : Except Outcome Task := do
  if a.has .help then throw ⟨0, usage program, ""⟩
  match a.free with
  | [path] =>
    let direction ← readDirection (a.value? .direction)
    let maxLength ← readNumber a .maxLength
    let maxInputLength ← readNumber a .maxInputLength
    return { path
             splitDevices := a.has .splitDevices
             config := { flatten := a.has .flatten
                         maxLength
                         maxInputLength := maxInputLength.getD defaultMaxInputLength
                         direction
                         ignoreErrors := a.has .ignoreErrors }
             listActions := a.has .actions }
  | _ => .error ⟨1, usage program, ""⟩

/-- The task of a command line, or what is printed instead. -/
def read (program : String) (arguments : List String) : Except Outcome Task :=
  match Arguments.read arguments with
  | .error fault => .error (.fail fault.message)
  | .ok a => ofArguments program a

/-- The codec of a task, given what its file holds. -/
def codec (task : Task) (content : Except FileFault ByteArray) : Except Outcome Codec := do
  let unreadable (message : String) : Outcome := .fail ("cannot read " ++ task.path ++ ": " ++ message)
  let bytes ← content.mapError fun fault => unreadable fault.message
  let some text := String.fromUTF8? bytes | throw (unreadable invalidText)
  let catalog ← (Catalog.ofLines (Text.lines text)).mapError fun fault =>
    .fail (task.path ++ ": " ++ fault.message)
  let language ← (catalog.language task.splitDevices defaultValueCount).mapError fun fault =>
    .fail fault.message
  (Codec.ofLanguage language task.config).mapError fun
    | .build fault => .fail fault.report
    | fault => .fail fault.message

end Task

def namedLine (name : String) (words : List String) : String :=
  "  " ++ name ++ ": " ++ " ".intercalate words ++ "\n"

def channelLine (name : String) (length : Nat) (entries : List UInt32) : String :=
  namedLine name ((entries.take length).map fun entry => toString entry.toNat)

def opening (codec : Codec) (listActions : Bool) : String :=
  "states: " ++ toString codec.automaton.stateCount ++ "\n" ++
  "rules: " ++ toString codec.ruleCount ++ "\n" ++
  "terminals: " ++ toString codec.automaton.grammar.terminals.size ++ "\n" ++
  if listActions then
    String.join (codec.descriptions.map fun (action, description) =>
      toString action.toNat ++ " " ++ description ++ "\n")
  else ""

/-- The vectors of a program and the program that is read back from them. -/
def vectorLines (codec : Codec) (sentence : List String) (v : ActionVectors) : String :=
  channelLine "actions" v.length v.actions ++
  namedLine "prediction" (codec.spellings (v.actions.take v.length)) ++
  String.join (v.values.entries.map fun (name, entries) => channelLine name v.length entries) ++
  String.join (v.spans.entries.map fun (name, spans) =>
    channelLine ("COPY_" ++ name ++ "_begin") v.length spans.first ++
    channelLine ("COPY_" ++ name ++ "_end") v.length spans.last) ++
  (if v.truncated then "  truncated\n" else "") ++
  match codec.decode (some sentence) v with
  | .ok program => "  reconstructed: " ++ programText program ++ "\n"
  | .error fault => "  reconstruction failed: " ++ fault.message ++ "\n"

def answerLine (codec : Codec) (line : String) : Outcome :=
  match Text.cutFirst '\t' line.toList with
  | none => ⟨0, "", "skipping line without a tab: " ++ line ++ "\n"⟩
  | some (before, after) =>
    let sentence := Text.words (String.ofList before)
    let program := String.ofList after
    let answer := match codec.encode sentence program with
      | .ok v => vectorLines codec sentence v
      | .error fault => "  error: " ++ fault.message ++ "\n"
    ⟨0, program ++ "\n" ++ answer, ""⟩

/-- The answers to lines of input. The first that is not text ends the run. -/
def answerLines (codec : Codec) : List ByteArray → Outcome
  | [] => ⟨0, "", ""⟩
  | line :: rest =>
    match String.fromUTF8? line with
    | none => .fail invalidText
    | some line => (answerLine codec line).andThen (answerLines codec rest)

def run (program : String) (arguments : List String)
    (readFile : String → Except FileFault ByteArray) (input : ByteArray) : Outcome :=
  let result := do
    let task ← Task.read program arguments
    let codec ← task.codec (readFile task.path)
    let start : Outcome := ⟨0, opening codec task.listActions, ""⟩
    return if task.listActions then start
      else start.andThen (answerLines codec (Text.byteLines input))
  match result with
  | .ok outcome => outcome
  | .error outcome => outcome

end CommandLang.CommandLine
