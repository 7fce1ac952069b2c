import CommandLang.OrderedMap

/-! Catalogs: the devices with their typed functions, and the entities, units and enums that the
types refer to. -/

namespace CommandLang

inductive FunctionKind where
  | query | action
deriving DecidableEq, Repr

/-- Whether a parameter is given to a function or read from its result. -/
inductive Flow where
  | input | output
deriving DecidableEq, Repr

/-- A parameter as it is declared; its type is only a text so far. -/
structure ParamDecl where
  name : String
  type : String
  flow : Flow
deriving DecidableEq, Repr

structure FunctionDecl where
  kind : FunctionKind
  device : String
  name : String
  params : List ParamDecl
deriving DecidableEq, Repr

def FunctionDecl.word (function : FunctionDecl) : String :=
  "@" ++ function.device ++ "." ++ function.name

structure EntityDecl where
  kind : String
  /-- Whether the entity may be given as a quoted text. -/
  freeText : Bool
deriving DecidableEq, Repr

structure Catalog where
  devices : List String
  functions : List FunctionDecl
  enums : List (List String)
  /-- The units of each measurement family. -/
  units : OrderedMap String (List String)
  entities : List EntityDecl
deriving DecidableEq

namespace Catalog

def empty : Catalog := ⟨[], [], [], ∅, []⟩

def addDevice (c : Catalog) (device : String) : Catalog :=
  if device ∈ c.devices then c else { c with devices := c.devices ++ [device] }

def addFunction (c : Catalog) (function : FunctionDecl) : Catalog :=
  let c := c.addDevice function.device
  { c with functions := c.functions ++ [function] }

def addEnum (c : Catalog) (members : List String) : Catalog :=
  { c with enums := c.enums ++ [members] }

def setUnits (c : Catalog) (family : String) (units : List String) : Catalog :=
  { c with units := c.units.insert family units }

def addEntity (c : Catalog) (kind : String) (freeText : Bool) : Catalog :=
  { c with entities := c.entities ++ [⟨kind, freeText⟩] }

end Catalog

end CommandLang
