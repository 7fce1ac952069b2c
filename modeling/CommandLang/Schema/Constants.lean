import CommandLang.Schema.Typing

/-! What a schema contributes to a grammar is a list of clauses: rules, and notes that a class of
values is in use. This module holds the clauses of constants. The clauses of a type come with those
of every type inside it; a clause that comes twice counts once, so they may be asked for wherever
a constant is used. -/

namespace CommandLang

inductive Clause where
  | rule (lhs : String) (rhs : Rhs)
  /-- Values of an extensible class occur. -/
  | values (name : String)
  /-- Quoted texts occur. -/
  | quotation
deriving DecidableEq, Repr

/-- A catalog with typed functions, and the choices that shape its language. -/
structure Schema where
  catalog : Catalog
  functions : List TypedFunction
  /-- Whether a function is spelled as its device followed by the function. -/
  splitDevices : Bool
  valueCount : Nat
deriving DecidableEq

def quotedString : String := "QUOTED_STRING"

def deviceWord (splitDevices : Bool) (device : String) : String :=
  if splitDevices then "@@" ++ device else "device:" ++ device

def ParamType.constantName (type : ParamType) : String := "$constant_" ++ type.text

def ParamType.outputName (type : ParamType) : String := "$out_param_" ++ type.text

/-- The right-hand sides for one value of a type: enum members and truth values are spelled out. -/
def ParamType.valueForms : ParamType → List Rhs
  | .enumeration members => members.map fun member => [.word ("enum:" ++ member)]
  | .boolean => [[.word "true"], [.word "false"]]
  | type => [[.nonterminal type.constantName]]

namespace Schema

variable (s : Schema)

def hasDurations : Bool := s.catalog.units.contains durationFamily

def constantRules (type : ParamType) (productions : List Rhs) : List Clause :=
  productions.map (.rule type.constantName)

def entityClass (kind : String) : String :=
  (wellKnownEntities.lookup kind).getD ("GENERIC_ENTITY_" ++ kind)

def dateEdgeUnits : List String := ["h", "day", "week", "mon", "year"]

def places : List String := ["current_location", "home", "work"]

def numberClauses : List Clause := .values "NUMBER" :: constantRules .number [[.valueOf "NUMBER"]]

def stringClauses : List Clause := .quotation :: constantRules .string [[.spanOf quotedString]]

def measureClauses (family : String) : List Clause :=
  let quantities : List Rhs := ((s.catalog.units.get? family).getD []).map fun unit =>
    [.nonterminal ParamType.number.constantName, .word ("unit:" ++ unit)]
  numberClauses ++
    if family = durationFamily then
      .values "DURATION" :: constantRules (.measure family) (quantities ++ [[.valueOf "DURATION"]])
    else constantRules (.measure family) quantities

/-- Dates can be shifted by durations if there are any. -/
def dateClauses : List Clause :=
  let date : Symbol Terminal String := .nonterminal ParamType.date.constantName
  let duration : Symbol Terminal String := .nonterminal (ParamType.measure durationFamily).constantName
  let edges : List Rhs := dateEdgeUnits.flatMap fun unit =>
    [[.word "start_of", .word ("unit:" ++ unit)], [.word "end_of", .word ("unit:" ++ unit)]]
  let dates : List Rhs := [.valueOf "DATE"] :: [.word "now"] :: edges
  .values "DATE" ::
    if s.hasDurations then
      s.measureClauses durationFamily ++ constantRules .date
        (dates ++ [[date, .word "+", duration], [date, .word "-", duration]])
    else constantRules .date dates

def locationClauses : List Clause :=
  .values "LOCATION" :: constantRules .location
    ([.valueOf "LOCATION"] :: places.map fun place => [.word ("location:" ++ place)])

def entityClauses (kind : String) : List Clause :=
  if kind = deviceEntity then
    constantRules (.entity kind) (s.catalog.devices.map fun device => [.word (deviceWord s.splitDevices device)])
  else
    .values (entityClass kind) ::
      if s.catalog.freeText kind then
        stringClauses ++ constantRules (.entity kind)
          [[.valueOf (entityClass kind)],
            [.nonterminal ParamType.string.constantName, .word ("^^" ++ kind)]]
      else constantRules (.entity kind) [[.valueOf (entityClass kind)]]

/-- The clauses of the constants of a type, those of the types inside it first. -/
def constantClauses : ParamType → List Clause
  | .string => stringClauses
  | .number => numberClauses
  | .boolean => constantRules .boolean ParamType.boolean.valueForms
  | .date => s.dateClauses
  | .time => .values "TIME" :: constantRules .time [[.valueOf "TIME"]]
  | .currency => .values "CURRENCY" :: constantRules .currency [[.valueOf "CURRENCY"]]
  | .location => locationClauses
  | .entity kind => s.entityClauses kind
  | .measure family => s.measureClauses family
  | .enumeration members =>
    constantRules (.enumeration members) (ParamType.enumeration members).valueForms
  | .array element =>
    let inner := match element with
      | .enumeration _ | .boolean => []
      | _ => constantClauses element
    inner ++ constantRules (.array element) (element.valueForms.flatMap fun form =>
      [form, .nonterminal (ParamType.array element).constantName :: .word "," :: form])

/-- The clauses that the forms of one value of a type rely on. -/
def valueClauses : ParamType → List Clause
  | .enumeration _ | .boolean => []
  | type => s.constantClauses type

end Schema

end CommandLang
