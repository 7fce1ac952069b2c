import CommandLang.Schema.Catalog
import CommandLang.Schema.ParamType
import CommandLang.Grammar.Validity

/-! Typed catalogs. Every parameter gets its type, provided that the type is known, that the units
it needs are declared, and that no unit is ambiguous. -/

namespace CommandLang

inductive SchemaError where
  | unknownType (function param type : String)
  | missingUnits (family : String)
  | duplicateUnit (unit first second : String)
  | grammar (fault : GrammarError)
deriving DecidableEq, Repr

def SchemaError.message : SchemaError → String
  | unknownType function param type =>
    "parameter `" ++ param ++ "` of `" ++ function ++ "` has unknown type `" ++ type ++ "`"
  | missingUnits family => "measurement family `" ++ family ++ "` has no units"
  | duplicateUnit unit first second =>
    "unit `" ++ unit ++ "` belongs to both `" ++ first ++ "` and `" ++ second ++ "`"
  | grammar fault => fault.message

structure Param where
  name : String
  type : ParamType
  flow : Flow
deriving DecidableEq, Repr

def Param.word (param : Param) : String := "param:" ++ param.name ++ ":" ++ param.type.text

structure TypedFunction where
  kind : FunctionKind
  device : String
  word : String
  params : List Param
deriving DecidableEq, Repr

/-- The entity kinds that need no declaration, with the names of their value classes. -/
def wellKnownEntities : List (String × String) :=
  [("tt:username", "USERNAME"), ("tt:hashtag", "HASHTAG"), ("tt:url", "URL"),
    ("tt:phone_number", "PHONE_NUMBER"), ("tt:email_address", "EMAIL_ADDRESS"),
    ("tt:picture", "PICTURE"), ("tt:path_name", "PATH_NAME")]

def deviceEntity : String := "tt:device"

/-- The measurement family whose quantities are durations. -/
def durationFamily : String := "ms"

namespace Catalog

/-- Notes the units of one family; `seen` holds the units so far with their families. -/
def noteUnits (family : String) (seen : List (String × String)) :
    List String → Except SchemaError (List (String × String))
  | [] => .ok seen
  | unit :: rest =>
    match seen.lookup unit with
    | some first => .error (.duplicateUnit unit first family)
    | none => noteUnits family ((unit, family) :: seen) rest

/-- Goes through families with their units, which have to be some and all different. -/
def checkUnits (seen : List (String × String)) : List (String × List String) → Except SchemaError Unit
  | [] => .ok ()
  | (family, units) :: rest =>
    if units.isEmpty then .error (.missingUnits family)
    else do checkUnits (← noteUnits family seen units) rest

variable (c : Catalog)

def knowsEntity (kind : String) : Bool :=
  kind == deviceEntity || (wellKnownEntities.map Prod.fst).contains kind ||
    (c.entities.map (·.kind)).contains kind

/-- Whether an entity kind may be given as a quoted text, as its last declaration says. -/
def freeText (kind : String) : Bool :=
  ((c.entities.reverse.find? (·.kind = kind)).map (·.freeText)).getD false

/-- Whether the entity kind inside a type, if there is one, is known. -/
def knowsType (type : ParamType) : Bool :=
  match type.element with
  | .entity kind => c.knowsEntity kind
  | _ => true

def typeParam (function : FunctionDecl) (param : ParamDecl) : Except SchemaError Param :=
  let unknown := SchemaError.unknownType function.word param.name param.type
  match ParamType.read param.type.toList with
  | none => .error unknown
  | some type =>
    if c.knowsType type then
      match type.element with
      | .measure family =>
        if c.units.contains family then .ok ⟨param.name, type, param.flow⟩
        else .error (.missingUnits family)
      | _ => .ok ⟨param.name, type, param.flow⟩
    else .error unknown

/-- The functions with typed parameters, or the first fault of the catalog: units come first, then
the parameters in order. -/
def typedFunctions : Except SchemaError (List TypedFunction) := do
  checkUnits [] c.units.entries
  c.functions.mapM fun function => do
    return ⟨function.kind, function.device, function.word, ← function.params.mapM (c.typeParam function)⟩

end Catalog

end CommandLang
