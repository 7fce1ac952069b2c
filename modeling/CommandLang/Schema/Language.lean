import CommandLang.Schema.Constants

/-! The command language of a catalog. A program says when something happens and what is done then,
or answers a question; functions, parameters, filters and constants come from the catalog. The
grammar is listed as clauses, in the order in which its rules are declared. -/

namespace CommandLang

namespace Schema

variable (s : Schema)

def hasKind (kind : FunctionKind) : Bool := s.functions.any (·.kind = kind)

def startName : String := "$input"

def specialAnswers : List String := ["yes", "no", "nevermind", "failed"]

def commandClauses : List Clause :=
  let time : Symbol Terminal String := .nonterminal ParamType.time.constantName
  let date : Symbol Terminal String := .nonterminal ParamType.date.constantName
  let duration := ParamType.measure durationFamily
  List.flatten [
    [.rule startName [.nonterminal "$rule"],
      .rule startName [.word "bookkeeping", .word "special", .nonterminal "$special"],
      .rule startName [.word "bookkeeping", .word "answer", .nonterminal "$constant_Any"]],
    specialAnswers.map fun answer => .rule "$special" [.word ("special:" ++ answer)],
    [.rule "$rule" [.nonterminal "$stream", .word "=>", .nonterminal "$action"],
      .rule "$rule" [.word "now", .word "=>", .nonterminal "$action"],
      .rule "$action" [.word "notify"],
      .rule "$action" [.word "return"]],
    if s.hasKind .query then
      [.rule "$rule" [.word "now", .word "=>", .nonterminal "$table", .word "=>", .nonterminal "$action"],
        .rule "$table" [.nonterminal "$get_query"],
        .rule "$get_query" [.nonterminal "$query_function"],
        .rule "$stream" [.word "monitor", .word "(", .nonterminal "$table", .word ")"]]
    else [],
    if s.hasKind .action then
      [.rule "$action" [.nonterminal "$call"], .rule "$call" [.nonterminal "$action_function"]]
    else [],
    s.constantClauses .time,
    [.rule "$stream" [.word "attimer", .word "time", .word "=", time]],
    if s.hasDurations then
      s.constantClauses .date ++ s.constantClauses duration ++
      [.rule "$stream"
        [.word "timer", .word "base", .word "=", date, .word ",", .word "interval", .word "=",
          .nonterminal duration.constantName]]
    else []]

def functionClauses : List Clause :=
  s.functions.flatMap fun function =>
    let (lhs, group) := match function.kind with
      | .query => ("$query_function", "$queries_")
      | .action => ("$action_function", "$actions_")
    if s.splitDevices then
      [.rule lhs [.word (deviceWord true function.device), .nonterminal (group ++ function.device)],
        .rule (group ++ function.device) [.word function.word]]
    else [.rule lhs [.word function.word]]

def params : List Param := (s.functions.flatMap (·.params)).eraseDups

/-- The right-hand sides of a value that is given to a parameter: arrays stand in brackets. -/
def givenForms (type : ParamType) : List Rhs :=
  match type with
  | .array _ => [[.word "[", .nonterminal type.constantName, .word "]"]]
  | _ => type.valueForms

/-- Any parameter may be read, whatever its flow. -/
def outputClauses : List Clause :=
  s.params.flatMap fun param =>
    [.rule param.type.outputName [.word param.word],
      .rule "$out_param_Any" [.nonterminal param.type.outputName]]

/-- Input parameters are given constants, or what another function returned; any result and the
whole event can pass for a string. -/
def inputClauses : List Clause :=
  (s.params.filter (·.flow = .input)).flatMap fun param =>
    let receiver : Rhs := [.word param.word, .word "="]
    List.flatten [
      s.valueClauses param.type,
      (givenForms param.type).map fun form => .rule "$const_param" (receiver ++ form),
      if param.type = .string then
        [.rule "$param_passing" (receiver ++ [.word "event"]),
          .rule "$param_passing" (receiver ++ [.nonterminal "$out_param_Any"])]
      else [.rule "$param_passing" (receiver ++ [.nonterminal param.type.outputName])]]

/-- Queries take constants, and actions take constants and results. -/
def givingClauses : List Clause :=
  if s.params.any (·.flow = .input) then
    (if s.hasKind .query then
      [.rule "$get_query" [.nonterminal "$get_query", .nonterminal "$const_param"]] else []) ++
    if s.hasKind .action then
      [.rule "$call" [.nonterminal "$call", .nonterminal "$const_param"],
        .rule "$call" [.nonterminal "$call", .nonterminal "$param_passing"]]
    else []
  else []

def outputTypes : List ParamType := (s.params.map (·.type)).eraseDups

def conditionClauses (type : ParamType) : List Clause :=
  let result : Symbol Terminal String := .nonterminal type.outputName
  let constant : Symbol Terminal String := .nonterminal type.constantName
  match type with
  | .array element =>
    s.valueClauses element ++
    element.valueForms.map fun form => .rule "$atom_filter" (result :: .word "contains" :: form)
  | _ =>
    s.valueClauses type ++
    (type.operators.flatMap fun operator =>
      type.valueForms.map fun form => .rule "$atom_filter" (result :: .word operator :: form)) ++
    (if type.isOrdered then
      [.rule "$atom_filter"
        [result, .word "in_range", .word "[", constant, .word ",", constant, .word "]"]]
    else []) ++
    if type.hasMembership then
      s.constantClauses (.array type) ++
      [.rule "$atom_filter"
        [result, .word "in_array", .word "[", .nonterminal (ParamType.array type).constantName, .word "]"]]
    else []

/-- Conditions joined to filters, if there is anything to compare. -/
def filterClauses : List Clause :=
  if s.outputTypes.isEmpty then []
  else
    List.flatten [
      s.outputTypes.flatMap s.conditionClauses,
      [.rule "$filter" [.nonterminal "$or_filter"],
        .rule "$filter" [.nonterminal "$filter", .word "and", .nonterminal "$or_filter"],
        .rule "$or_filter" [.nonterminal "$atom_filter"],
        .rule "$or_filter" [.word "not", .nonterminal "$atom_filter"],
        .rule "$or_filter" [.nonterminal "$or_filter", .word "or", .nonterminal "$atom_filter"],
        .rule "$or_filter"
          [.nonterminal "$or_filter", .word "or", .word "not", .nonterminal "$atom_filter"],
        .rule "$stream"
          [.word "edge", .word "(", .nonterminal "$stream", .word ")", .word "on", .nonterminal "$filter"]],
      if s.hasKind .query then
        [.rule "$table" [.word "(", .nonterminal "$table", .word ")", .word "filter", .nonterminal "$filter"]]
      else []]

def elementTypes : List ParamType := s.functions.flatMap fun function => function.params.map (·.type.element)

/-- The entity kinds that are declared or that a parameter uses. Devices are entities if there are any. -/
def entityKinds : List String :=
  let used := s.elementTypes.filterMap fun
    | .entity kind => some kind
    | _ => none
  let kinds := (s.catalog.entities.map (·.kind) ++ used).eraseDups
  if s.catalog.devices.isEmpty then kinds.filter (· ≠ deviceEntity)
  else if deviceEntity ∈ kinds then kinds else kinds ++ [deviceEntity]

def enumMembers : List String :=
  let used := s.elementTypes.flatMap fun
    | .enumeration members => members
    | _ => []
  (s.catalog.enums.flatten ++ used).eraseDups

def answerTypes : List ParamType :=
  List.flatten [
    [.string, .number, .boolean, .date, .time, .currency, .location],
    s.entityKinds.map .entity,
    s.catalog.units.keys.map .measure]

def answerClauses : List Clause :=
  (s.answerTypes.flatMap fun type =>
    s.constantClauses type ++ [.rule "$constant_Any" [.nonterminal type.constantName]]) ++
  s.enumMembers.map fun member => .rule "$constant_Any" [.word ("enum:" ++ member)]

def clauses : List Clause :=
  s.commandClauses ++ s.functionClauses ++ s.outputClauses ++ s.inputClauses ++ s.givingClauses ++
    s.filterClauses ++ s.answerClauses

end Schema

def Clause.rule? : Clause → Option (String × Rhs)
  | .rule lhs rhs => some (lhs, rhs)
  | _ => none

def Clause.values? : Clause → Option String
  | .values name => some name
  | _ => none

namespace Schema

variable (s : Schema)

def placeholders (name : String) : List String :=
  (List.range s.valueCount).map fun i => name ++ "_" ++ toString i

def quotation : CopyClass := ⟨"\"", "\"", s.placeholders quotedString⟩

/-- The language as a draft: its rules, then the classes that they use. -/
def draft : Draft :=
  let clauses := s.clauses
  let ruled := (Draft.empty startName).addRules (clauses.filterMap Clause.rule?)
  let valued := (clauses.filterMap Clause.values?).eraseDups.foldl
    (fun d name => d.declareExtensible name (s.placeholders name)) ruled
  if Clause.quotation ∈ clauses then valued.declareCopy quotedString s.quotation else valued

end Schema

/-- The grammar of a catalog, with the devices of its functions. -/
structure Language where
  grammar : Grammar
  /-- The device of every function word. -/
  functionDevices : OrderedMap String String
  splitDevices : Bool

def Language.deviceWord (language : Language) (device : String) : String :=
  CommandLang.deviceWord language.splitDevices device

/-- The device word that has to stand before each function word. -/
def Language.deviceWords (language : Language) : OrderedMap String String :=
  if language.splitDevices then
    .ofList (language.functionDevices.entries.map fun (function, device) =>
      (function, language.deviceWord device))
  else ∅

def defaultValueCount : Nat := 8

def Catalog.language (c : Catalog) (splitDevices : Bool) (valueCount : Nat) :
    Except SchemaError Language := do
  let functions ← c.typedFunctions
  let schema : Schema := ⟨c, functions, splitDevices, valueCount⟩
  match schema.draft.build with
  | .error fault => .error (.grammar fault)
  | .ok grammar =>
    return { grammar, splitDevices
             functionDevices := .ofList (functions.map fun function => (function.word, function.device)) }

end CommandLang
