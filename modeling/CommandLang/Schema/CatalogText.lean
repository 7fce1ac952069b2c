import CommandLang.Schema.Catalog
import CommandLang.Text.Cut
import CommandLang.Text.Words

/-! Catalogs as text, one declaration a line:

```text
device <id>
entity <kind> [text]
units <family> <unit>...
enum <member>...
query <@device.name> <in|out>:<param> <Type>...
action <@device.name> <in|out>:<param> <Type>...
```

Lines without words and lines that start with `#` say nothing. Reading stops at the first line that
is none of these. -/

namespace CommandLang

inductive LineFault where
  | deviceForm
  | entityForm
  | unitsForm
  | enumForm
  | functionForm (directive : String)
  | functionName (word : String)
  | unpairedParams
  | paramForm (word : String)
  | paramFlow (word : String)
  | unknownDirective (word : String)
deriving DecidableEq, Repr

def LineFault.message : LineFault → String
  | deviceForm => "expected `device <id>`"
  | entityForm => "expected `entity <kind> [text]`"
  | unitsForm => "expected `units <family> <unit>...`"
  | enumForm => "expected `enum <member>...`"
  | functionForm directive => "expected `" ++ directive ++ " <@device.name> ...`"
  | functionName word => "malformed function name `" ++ word ++ "`"
  | unpairedParams => "parameters must come in `<in|out>:<name> <Type>` pairs"
  | paramForm word => "malformed parameter `" ++ word ++ "`"
  | paramFlow word => "unknown parameter direction `" ++ word ++ "`"
  | unknownDirective word => "unknown directive `" ++ word ++ "`"

/-- A faulty line, counted from one. -/
structure CatalogError where
  line : Nat
  fault : LineFault
deriving DecidableEq, Repr

def CatalogError.message (error : CatalogError) : String :=
  "line " ++ toString error.line ++ ": " ++ error.fault.message

def ParamDecl.read (word type : String) : Except LineFault ParamDecl :=
  match Text.cutFirst ':' word.toList with
  | none => .error (.paramForm word)
  | some (flow, name) =>
    match String.ofList flow with
    | "in" => .ok ⟨String.ofList name, type, .input⟩
    | "out" => .ok ⟨String.ofList name, type, .output⟩
    | other => .error (.paramFlow other)

def ParamDecl.readAll : List String → Except LineFault (List ParamDecl)
  | word :: type :: rest => do
    let param ← ParamDecl.read word type
    return param :: (← readAll rest)
  | _ => .ok []

/-- The device and the name in a word `@device.name`; the last dot is the one that counts. -/
def FunctionDecl.readWord (word : String) : Option (String × String) :=
  match word.toList with
  | '@' :: rest =>
    (Text.cutLast '.' rest).map fun (device, name) => (String.ofList device, String.ofList name)
  | _ => none

def FunctionDecl.read (kind : FunctionKind) (directive : String) :
    List String → Except LineFault FunctionDecl
  | [] => .error (.functionForm directive)
  | word :: params =>
    match FunctionDecl.readWord word with
    | none => .error (.functionName word)
    | some (device, name) =>
      if params.length % 2 = 0 then return ⟨kind, device, name, ← ParamDecl.readAll params⟩
      else .error .unpairedParams

namespace Catalog

def readWords (c : Catalog) : List String → Except LineFault Catalog
  | [] => .ok c
  | directive :: args =>
    if directive.toList.head? = some '#' then .ok c
    else match directive, args with
      | "device", [device] => .ok (c.addDevice device)
      | "device", _ => .error .deviceForm
      | "entity", [kind] => .ok (c.addEntity kind false)
      | "entity", [kind, "text"] => .ok (c.addEntity kind true)
      | "entity", _ => .error .entityForm
      | "units", family :: units => .ok (c.setUnits family units)
      | "units", [] => .error .unitsForm
      | "enum", [] => .error .enumForm
      | "enum", members => .ok (c.addEnum members)
      | "query", args => return c.addFunction (← FunctionDecl.read .query "query" args)
      | "action", args => return c.addFunction (← FunctionDecl.read .action "action" args)
      | other, _ => .error (.unknownDirective other)

/-- Takes in lines, the first of which has number `number`. -/
def readLines (c : Catalog) (number : Nat) : List String → Except CatalogError Catalog
  | [] => .ok c
  | line :: rest =>
    match c.readWords (Text.words line) with
    | .ok c => c.readLines (number + 1) rest
    | .error fault => .error ⟨number, fault⟩

def ofLines (lines : List String) : Except CatalogError Catalog := empty.readLines 1 lines

end Catalog

end CommandLang
