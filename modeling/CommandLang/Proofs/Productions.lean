import CommandLang.Proofs.Furnished

/-! The rules of a schema, told apart by where they come from. Some do not depend on the catalog; the others belong to its
functions, to their parameters, or to the constants of a type. -/

namespace CommandLang

def ParamType.levels : ParamType → List ParamType
  | .array element => .array element :: element.levels
  | type => [type]

namespace Schema

/-- The rules that are the same in all languages that have them. -/
def fixedRules : List (String × Rhs) :=
  let time : Symbol Terminal String := .nonterminal ParamType.time.constantName
  let date : Symbol Terminal String := .nonterminal ParamType.date.constantName
  let duration : Symbol Terminal String := .nonterminal (ParamType.measure durationFamily).constantName
  [("$input", [.nonterminal "$rule"]),
    ("$input", [.word "bookkeeping", .word "special", .nonterminal "$special"]),
    ("$input", [.word "bookkeeping", .word "answer", .nonterminal "$constant_Any"]),
    ("$special", [.word "special:yes"]),
    ("$special", [.word "special:no"]),
    ("$special", [.word "special:nevermind"]),
    ("$special", [.word "special:failed"]),
    ("$rule", [.nonterminal "$stream", .word "=>", .nonterminal "$action"]),
    ("$rule", [.word "now", .word "=>", .nonterminal "$action"]),
    ("$rule", [.word "now", .word "=>", .nonterminal "$table", .word "=>", .nonterminal "$action"]),
    ("$action", [.word "notify"]),
    ("$action", [.word "return"]),
    ("$action", [.nonterminal "$call"]),
    ("$call", [.nonterminal "$action_function"]),
    ("$table", [.nonterminal "$get_query"]),
    ("$table", [.word "(", .nonterminal "$table", .word ")", .word "filter", .nonterminal "$filter"]),
    ("$get_query", [.nonterminal "$query_function"]),
    ("$stream", [.word "monitor", .word "(", .nonterminal "$table", .word ")"]),
    ("$stream", [.word "attimer", .word "time", .word "=", time]),
    ("$stream", [.word "timer", .word "base", .word "=", date, .word ",", .word "interval", .word "=", duration]),
    ("$stream", [.word "edge", .word "(", .nonterminal "$stream", .word ")", .word "on", .nonterminal "$filter"]),
    ("$filter", [.nonterminal "$or_filter"]),
    ("$filter", [.nonterminal "$filter", .word "and", .nonterminal "$or_filter"]),
    ("$or_filter", [.nonterminal "$atom_filter"]),
    ("$or_filter", [.word "not", .nonterminal "$atom_filter"]),
    ("$or_filter", [.nonterminal "$or_filter", .word "or", .nonterminal "$atom_filter"]),
    ("$or_filter", [.nonterminal "$or_filter", .word "or", .word "not", .nonterminal "$atom_filter"])]

def Takes (s : Schema) (param : Param) : Prop := param ∈ s.params ∧ param.flow = .input

/-- Lists of a type come up: inside the type of a parameter that is given a value, below the outermost level of any
parameter, or to look for the value of a parameter. -/
inductive Listed (s : Schema) (element : ParamType) : Prop where
  | given {param : Param} (takes : s.Takes param) (level : .array element ∈ param.type.levels)
  | contained {outer : ParamType} (read : .array outer ∈ s.outputTypes) (level : .array element ∈ outer.levels)
  | sought (read : element ∈ s.outputTypes) (member : element.hasMembership = true)

/-- The right-hand sides of the constants of a type. -/
inductive Constant (s : Schema) : ParamType → Rhs → Prop where
  | string : Constant s .string [.spanOf quotedString]
  | number : Constant s .number [.valueOf "NUMBER"]
  | truth {text : String} (known : text ∈ ["true", "false"]) : Constant s .boolean [.word text]
  | date : Constant s .date [.valueOf "DATE"]
  | today : Constant s .date [.word "now"]
  | edge {edge unit : String} (side : edge ∈ ["start_of", "end_of"]) (known : unit ∈ dateEdgeUnits) :
    Constant s .date [.word edge, .word ("unit:" ++ unit)]
  | shifted {sign : String} (known : sign ∈ ["+", "-"]) :
    Constant s .date [.nonterminal ParamType.date.constantName, .word sign,
      .nonterminal (ParamType.measure durationFamily).constantName]
  | time : Constant s .time [.valueOf "TIME"]
  | currency : Constant s .currency [.valueOf "CURRENCY"]
  | location : Constant s .location [.valueOf "LOCATION"]
  | place {place : String} (known : place ∈ places) : Constant s .location [.word ("location:" ++ place)]
  | device {device : String} (known : device ∈ s.catalog.devices) :
    Constant s (.entity deviceEntity) [.word (deviceWord s.splitDevices device)]
  | entity {kind : String} (other : kind ≠ deviceEntity) : Constant s (.entity kind) [.valueOf (entityClass kind)]
  | quoted {kind : String} (other : kind ≠ deviceEntity) :
    Constant s (.entity kind) [.nonterminal ParamType.string.constantName, .word ("^^" ++ kind)]
  | quantity {family unit : String} (known : unit ∈ (s.catalog.units.get? family).getD []) :
    Constant s (.measure family) [.nonterminal ParamType.number.constantName, .word ("unit:" ++ unit)]
  | duration : Constant s (.measure durationFamily) [.valueOf "DURATION"]
  | member {members : List String} {member : String} (known : member ∈ members) :
    Constant s (.enumeration members) [.word ("enum:" ++ member)]
  | single {element : ParamType} {form : Rhs} (known : form ∈ element.valueForms) : Constant s (.array element) form
  | more {element : ParamType} {form : Rhs} (known : form ∈ element.valueForms) :
    Constant s (.array element) (.nonterminal (ParamType.array element).constantName :: .word "," :: form)

/-- The rules that clauses of a schema can be. -/
inductive Production (s : Schema) : String → Rhs → Prop where
  | fixed {lhs : String} {rhs : Rhs} (known : (lhs, rhs) ∈ fixedRules) : Production s lhs rhs
  | joined {function : TypedFunction} (known : function ∈ s.functions) (joined : s.splitDevices = false) :
    Production s (functionNames function.kind).1 [.word function.word]
  | divided {function : TypedFunction} (known : function ∈ s.functions) (divided : s.splitDevices = true) :
    Production s (functionNames function.kind).1
      [.word (deviceWord true function.device), .nonterminal ((functionNames function.kind).2 ++ function.device)]
  | grouped {function : TypedFunction} (known : function ∈ s.functions) (divided : s.splitDevices = true) :
    Production s ((functionNames function.kind).2 ++ function.device) [.word function.word]
  | output {param : Param} (known : param ∈ s.params) : Production s param.type.outputName [.word param.word]
  | anyOutput {param : Param} (known : param ∈ s.params) :
    Production s "$out_param_Any" [.nonterminal param.type.outputName]
  | asked {param : Param} (takes : s.Takes param) :
    Production s "$get_query" [.nonterminal "$get_query", .nonterminal "$const_param"]
  | called {param : Param} (takes : s.Takes param) :
    Production s "$call" [.nonterminal "$call", .nonterminal "$const_param"]
  | passing {param : Param} (takes : s.Takes param) (acts : s.hasKind .action = true) :
    Production s "$call" [.nonterminal "$call", .nonterminal "$param_passing"]
  | given {param : Param} {form : Rhs} (takes : s.Takes param) (known : form ∈ givenForms param.type) :
    Production s "$const_param" (.word param.word :: .word "=" :: form)
  | passedEvent {param : Param} (takes : s.Takes param) (text : param.type = .string) :
    Production s "$param_passing" [.word param.word, .word "=", .word "event"]
  | passedAny {param : Param} (takes : s.Takes param) (text : param.type = .string) :
    Production s "$param_passing" [.word param.word, .word "=", .nonterminal "$out_param_Any"]
  | passed {param : Param} (takes : s.Takes param) (other : param.type ≠ .string) :
    Production s "$param_passing" [.word param.word, .word "=", .nonterminal param.type.outputName]
  | contains {element : ParamType} {form : Rhs} (read : .array element ∈ s.outputTypes) (known : form ∈ element.valueForms) :
    Production s "$atom_filter" (.nonterminal (ParamType.array element).outputName :: .word "contains" :: form)
  | compared {type : ParamType} {operator : String} {form : Rhs} (read : type ∈ s.outputTypes)
      (plain : ∀ element, type ≠ .array element) (compares : operator ∈ type.operators) (known : form ∈ type.valueForms) :
    Production s "$atom_filter" (.nonterminal type.outputName :: .word operator :: form)
  | ranged {type : ParamType} (read : type ∈ s.outputTypes) (ordered : type.isOrdered = true) :
    Production s "$atom_filter" [.nonterminal type.outputName, .word "in_range", .word "[", .nonterminal type.constantName,
      .word ",", .nonterminal type.constantName, .word "]"]
  | sought {type : ParamType} (read : type ∈ s.outputTypes) (member : type.hasMembership = true) :
    Production s "$atom_filter" [.nonterminal type.outputName, .word "in_array", .word "[",
      .nonterminal (ParamType.array type).constantName, .word "]"]
  | answer {type : ParamType} (known : type ∈ s.answerTypes) : Production s "$constant_Any" [.nonterminal type.constantName]
  | answerMember {member : String} (known : member ∈ s.enumMembers) : Production s "$constant_Any" [.word ("enum:" ++ member)]
  | constant {type : ParamType} {rhs : Rhs} (known : s.Constant type rhs)
      (listed : ∀ element, type = .array element → s.Listed element) : Production s type.constantName rhs

end Schema

def Clause.Produced (s : Schema) : Clause → Prop
  | .rule lhs rhs => s.Production lhs rhs
  | _ => True

section

variable {s : Schema} {lhs name : String} {rhs : Rhs}

@[simp] theorem Clause.produced_rule : (Clause.rule lhs rhs).Produced s ↔ s.Production lhs rhs := Iff.rfl

@[simp] theorem Clause.produced_values : (Clause.values name).Produced s := trivial

@[simp] theorem Clause.produced_quotation : Clause.quotation.Produced s := trivial

end

namespace Schema

variable {s : Schema} {type : ParamType}

theorem Constant.production {rhs : Rhs} (known : s.Constant type rhs) (plain : ∀ element, type ≠ .array element) :
    s.Production type.constantName rhs :=
  .constant known fun element same => absurd same (plain element)

@[simp] theorem produced_constantRules {productions : List Rhs} :
    (∀ clause ∈ constantRules type productions, clause.Produced s) ↔ ∀ rhs ∈ productions, s.Production type.constantName rhs := by
  rw [constantRules, List.forall_mem_map]
  rfl

theorem produced_numberClauses : ∀ clause ∈ numberClauses, clause.Produced s := by
  rw [numberClauses, List.forall_mem_cons, produced_constantRules, List.forall_mem_singleton]
  exact ⟨trivial, Constant.number.production (by simp)⟩

theorem produced_stringClauses : ∀ clause ∈ stringClauses, clause.Produced s := by
  rw [stringClauses, List.forall_mem_cons, produced_constantRules, List.forall_mem_singleton]
  exact ⟨trivial, Constant.string.production (by simp)⟩

theorem produced_measureClauses (family : String) : ∀ clause ∈ s.measureClauses family, clause.Produced s := by
  have quantities : ∀ unit ∈ (s.catalog.units.get? family).getD [], s.Production (ParamType.measure family).constantName
      [.nonterminal ParamType.number.constantName, .word ("unit:" ++ unit)] :=
    fun unit known => (Constant.quantity known).production (by simp)
  rw [measureClauses, List.forall_mem_append]
  refine ⟨produced_numberClauses, ?_⟩
  split
  next same =>
    subst same
    rw [List.forall_mem_cons, produced_constantRules, List.forall_mem_append, List.forall_mem_map, List.forall_mem_singleton]
    exact ⟨trivial, quantities, Constant.duration.production (by simp)⟩
  next => rwa [produced_constantRules, List.forall_mem_map]

theorem produced_dateClauses : ∀ clause ∈ s.dateClauses, clause.Produced s := by
  have edges : ∀ unit ∈ dateEdgeUnits, ∀ rhs ∈ [[.word "start_of", .word ("unit:" ++ unit)], [.word "end_of", .word ("unit:" ++ unit)]],
      s.Production ParamType.date.constantName rhs := by
    intro unit known
    rw [List.forall_mem_cons, List.forall_mem_singleton]
    exact ⟨(Constant.edge (by simp) known).production (by simp), (Constant.edge (by simp) known).production (by simp)⟩
  rw [dateClauses, List.forall_mem_cons]
  refine ⟨trivial, ?_⟩
  split
  next =>
    rw [List.forall_mem_append, produced_constantRules, List.forall_mem_append, List.forall_mem_cons, List.forall_mem_cons,
      List.forall_mem_flatMap, List.forall_mem_cons, List.forall_mem_singleton]
    exact ⟨produced_measureClauses _, ⟨Constant.date.production (by simp), Constant.today.production (by simp), edges⟩,
      (Constant.shifted (by simp)).production (by simp), (Constant.shifted (by simp)).production (by simp)⟩
  next =>
    rw [produced_constantRules, List.forall_mem_cons, List.forall_mem_cons, List.forall_mem_flatMap]
    exact ⟨Constant.date.production (by simp), Constant.today.production (by simp), edges⟩

theorem produced_locationClauses : ∀ clause ∈ locationClauses, clause.Produced s := by
  rw [locationClauses, List.forall_mem_cons, produced_constantRules, List.forall_mem_cons, List.forall_mem_map]
  exact ⟨trivial, Constant.location.production (by simp), fun place known => (Constant.place known).production (by simp)⟩

theorem produced_entityClauses (kind : String) : ∀ clause ∈ s.entityClauses kind, clause.Produced s := by
  rw [entityClauses]
  split
  next same =>
    subst same
    rw [produced_constantRules, List.forall_mem_map]
    exact fun device known => (Constant.device known).production (by simp)
  next other =>
    have value := (Constant.entity (s := s) other).production (by simp)
    rw [List.forall_mem_cons]
    refine ⟨trivial, ?_⟩
    split
    next =>
      rw [List.forall_mem_append, produced_constantRules]
      exact ⟨produced_stringClauses, by simpa [value] using (Constant.quoted (s := s) other).production (by simp)⟩
    next => rwa [produced_constantRules, List.forall_mem_singleton]

theorem produced_constantClauses (listed : ∀ element, .array element ∈ type.levels → s.Listed element) :
    ∀ clause ∈ s.constantClauses type, clause.Produced s := by
  induction type with
  | string => exact produced_stringClauses
  | number => exact produced_numberClauses
  | date => exact produced_dateClauses
  | location => exact produced_locationClauses
  | entity kind => exact produced_entityClauses kind
  | measure family => exact produced_measureClauses family
  | time =>
    rw [constantClauses, List.forall_mem_cons, produced_constantRules, List.forall_mem_singleton]
    exact ⟨trivial, Constant.time.production (by simp)⟩
  | currency =>
    rw [constantClauses, List.forall_mem_cons, produced_constantRules, List.forall_mem_singleton]
    exact ⟨trivial, Constant.currency.production (by simp)⟩
  | boolean =>
    have truth : ∀ text ∈ ["true", "false"], s.Production ParamType.boolean.constantName [.word text] :=
      fun text known => (Constant.truth known).production (by simp)
    simpa [constantClauses, ParamType.valueForms] using truth
  | enumeration members =>
    have member : ∀ member ∈ members, s.Production (ParamType.enumeration members).constantName [.word ("enum:" ++ member)] :=
      fun member known => (Constant.member known).production (by simp)
    simpa [constantClauses, ParamType.valueForms] using member
  | array element ih =>
    have outermost : ∀ inner, ParamType.array element = .array inner → s.Listed inner :=
      fun inner same => listed inner (by simp [ParamType.levels, ParamType.array.inj same])
    have inside := ih fun inner level => listed inner (List.mem_cons_of_mem _ level)
    rw [constantClauses_array, List.forall_mem_append, produced_constantRules, List.forall_mem_flatMap]
    refine ⟨?_, fun form known => ?_⟩
    · cases element with
      | enumeration | boolean => simp [valueClauses]
      | _ => exact inside
    · rw [List.forall_mem_cons, List.forall_mem_singleton]
      exact ⟨.constant (.single known) outermost, .constant (.more known) outermost⟩

theorem produced_valueClauses (listed : ∀ element, .array element ∈ type.levels → s.Listed element) :
    ∀ clause ∈ s.valueClauses type, clause.Produced s := by
  cases type with
  | enumeration | boolean => simp [valueClauses]
  | _ => exact produced_constantClauses listed

theorem levels_of_plain (plain : ∀ element, type ≠ .array element) (element : ParamType) : .array element ∉ type.levels := by
  cases type with
  | array inner => exact absurd rfl (plain inner)
  | _ => simp [ParamType.levels]

theorem produced_commandClauses : ∀ clause ∈ s.commandClauses, clause.Produced s := by
  have rules : ∀ rule ∈ fixedRules, s.Production rule.1 rule.2 := fun _ known => .fixed known
  simp only [fixedRules, List.forall_mem_cons] at rules
  have plain : ∀ {type : ParamType}, (∀ element, type ≠ .array element) → ∀ clause ∈ s.constantClauses type, clause.Produced s :=
    fun plain => produced_constantClauses fun element level => absurd level (levels_of_plain plain element)
  simp only [commandClauses, List.flatten_cons, List.flatten_nil, List.append_nil, List.forall_mem_append, List.forall_mem_map,
    List.forall_mem_cons]
  refine ⟨?_, ?_, ?_, ?_, ?_, plain (by simp), ?_, ?_⟩
  · simp [rules, startName]
  · simp [rules, specialAnswers]
  · simp [rules]
  · split <;> simp [rules]
  · split <;> simp [rules]
  · simp [rules]
  · split
    next =>
      simp only [List.forall_mem_append]
      exact ⟨⟨plain (by simp), plain (by simp)⟩, by simp [rules]⟩
    next => simp

theorem produced_functionClauses : ∀ clause ∈ s.functionClauses, clause.Produced s := by
  rw [functionClauses_eq, List.forall_mem_flatMap]
  intro function known
  simp only [callClauses]
  split
  next divided =>
    rw [List.forall_mem_cons, List.forall_mem_singleton]
    exact ⟨.divided known divided, .grouped known divided⟩
  next joined =>
    rw [List.forall_mem_singleton]
    exact .joined known (Bool.eq_false_iff.mpr joined)

theorem produced_outputClauses : ∀ clause ∈ s.outputClauses, clause.Produced s := by
  rw [outputClauses, List.forall_mem_flatMap]
  intro param known
  rw [List.forall_mem_cons, List.forall_mem_singleton]
  exact ⟨.output known, .anyOutput known⟩

theorem produced_inputClauses : ∀ clause ∈ s.inputClauses, clause.Produced s := by
  rw [inputClauses, List.forall_mem_flatMap]
  intro param known
  obtain ⟨member, flow⟩ := List.mem_filter.mp known
  have takes : s.Takes param := ⟨member, of_decide_eq_true flow⟩
  simp only [List.flatten_cons, List.flatten_nil, List.append_nil, List.forall_mem_append, List.forall_mem_map]
  refine ⟨produced_valueClauses fun element level => .given takes level, fun form inside => .given takes inside, ?_⟩
  split
  next text =>
    rw [List.forall_mem_cons, List.forall_mem_singleton]
    exact ⟨.passedEvent takes text, .passedAny takes text⟩
  next other =>
    rw [List.forall_mem_singleton]
    exact .passed takes other

theorem produced_givingClauses : ∀ clause ∈ s.givingClauses, clause.Produced s := by
  rw [givingClauses]
  split
  next given =>
    obtain ⟨param, member, flow⟩ := List.any_eq_true.mp given
    have takes : s.Takes param := ⟨member, of_decide_eq_true flow⟩
    rw [List.forall_mem_append]
    constructor
    · split
      next => exact List.forall_mem_singleton.mpr (.asked takes)
      next => simp
    · split
      next acts =>
        rw [List.forall_mem_cons, List.forall_mem_singleton]
        exact ⟨.called takes, .passing takes acts⟩
      next => simp
  next => simp

theorem produced_conditionClauses (read : type ∈ s.outputTypes) : ∀ clause ∈ s.conditionClauses type, clause.Produced s := by
  by_cases array : ∃ element, type = .array element
  · obtain ⟨element, rfl⟩ := array
    simp only [conditionClauses, List.forall_mem_append, List.forall_mem_map]
    exact ⟨produced_valueClauses fun inner level => .contained read level, fun form known => .contains read known⟩
  · have plain : ∀ element, type ≠ .array element := fun element same => array ⟨element, same⟩
    have listless : ∀ element, .array element ∈ type.levels → s.Listed element :=
      fun element level => absurd level (levels_of_plain plain element)
    rw [conditionClauses_eq plain]
    simp only [List.forall_mem_append, List.forall_mem_flatMap, List.forall_mem_map]
    refine ⟨⟨⟨produced_valueClauses listless, fun operator compares form known => .compared read plain compares known⟩, ?_⟩, ?_⟩
    · split
      next ordered => exact List.forall_mem_singleton.mpr (.ranged read ordered)
      next => simp
    · split
      next member =>
        rw [List.forall_mem_append, List.forall_mem_singleton]
        refine ⟨produced_constantClauses fun element level => ?_, .sought read member⟩
        rcases List.mem_cons.mp level with same | inside
        · exact ParamType.array.inj same ▸ .sought read member
        · exact listless element inside
      next => simp

theorem produced_filterClauses : ∀ clause ∈ s.filterClauses, clause.Produced s := by
  have rules : ∀ rule ∈ fixedRules, s.Production rule.1 rule.2 := fun _ known => .fixed known
  simp only [fixedRules, List.forall_mem_cons] at rules
  rw [filterClauses]
  split
  next => simp
  next =>
    simp only [List.flatten_cons, List.flatten_nil, List.append_nil, List.forall_mem_append, List.forall_mem_flatMap]
    refine ⟨fun type read => produced_conditionClauses read, ?_, ?_⟩
    · simp [rules]
    · split <;> simp [rules]

theorem produced_answerClauses : ∀ clause ∈ s.answerClauses, clause.Produced s := by
  rw [answerClauses, List.forall_mem_append, List.forall_mem_flatMap, List.forall_mem_map]
  refine ⟨fun type known => ?_, fun member known => .answerMember known⟩
  have plain : ∀ element, type ≠ .array element := by
    rintro element rfl
    simp [answerTypes] at known
  rw [List.forall_mem_append, List.forall_mem_singleton]
  exact ⟨produced_constantClauses fun element level => absurd level (levels_of_plain plain element), .answer known⟩

theorem production_of_mem {lhs : String} {rhs : Rhs} (known : .rule lhs rhs ∈ s.clauses) : s.Production lhs rhs := by
  have produced : ∀ clause ∈ s.clauses, clause.Produced s := by
    simp only [clauses, List.forall_mem_append]
    exact ⟨⟨⟨⟨⟨⟨produced_commandClauses, produced_functionClauses⟩, produced_outputClauses⟩, produced_inputClauses⟩,
      produced_givingClauses⟩, produced_filterClauses⟩, produced_answerClauses⟩
  exact produced _ known

/-- No rule defines a nonterminal with the name of the added start symbol. -/
theorem Production.lhs_ne_acceptName (known : s.Production lhs rhs) : lhs ≠ Numbered.acceptName := by
  intro same
  have letters := congrArg String.toList same
  cases known with
  | fixed known =>
    have all : ∀ rule ∈ fixedRules, rule.1 ≠ Numbered.acceptName := by decide
    exact all _ known same
  | @joined function | @divided function =>
    cases kind : function.kind <;> simp [functionNames, kind, Numbered.acceptName] at letters
  | @grouped function =>
    cases kind : function.kind <;> simp [functionNames, kind, Numbered.acceptName] at letters
  | _ => simp [ParamType.constantName, ParamType.outputName, Numbered.acceptName] at letters

end Schema

end CommandLang
