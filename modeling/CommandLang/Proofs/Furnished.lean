import CommandLang.Proofs.Supplies

/-! Schemas in which every type in use has values. Each nonterminal that some clause uses is settled, so no clause relies
on anything that is missing. -/

namespace CommandLang

namespace Schema

variable {clauses : List Clause} {s : Schema} {type : ParamType}

/-- A schema in which every type in use has values. -/
structure Furnished (s : Schema) : Prop where
  units : ∀ family ∈ s.catalog.units.keys, (s.catalog.units.get? family).getD [] ≠ []
  params : ∀ param ∈ s.params, s.Populates param.type

section

variable (s)

theorem commandClauses_subset : s.commandClauses ⊆ s.clauses := by
  intro clause member
  simp [clauses, member]

theorem functionClauses_subset : s.functionClauses ⊆ s.clauses := by
  intro clause member
  simp [clauses, member]

theorem outputClauses_subset : s.outputClauses ⊆ s.clauses := by
  intro clause member
  simp [clauses, member]

theorem inputClauses_subset : s.inputClauses ⊆ s.clauses := by
  intro clause member
  simp [clauses, member]

theorem givingClauses_subset : s.givingClauses ⊆ s.clauses := by
  intro clause member
  simp [clauses, member]

theorem filterClauses_subset : s.filterClauses ⊆ s.clauses := by
  intro clause member
  simp [clauses, member]

theorem answerClauses_subset : s.answerClauses ⊆ s.clauses := by
  intro clause member
  simp [clauses, member]

end

theorem settled_action : Settled s.clauses "$action" := by
  have known : .rule "$action" [.word "notify"] ∈ s.clauses := s.commandClauses_subset (by simp [commandClauses])
  exact .of_rule known (by simp)

theorem settled_rule : Settled s.clauses "$rule" := by
  have known : .rule "$rule" [.word "now", .word "=>", .nonterminal "$action"] ∈ s.clauses :=
    s.commandClauses_subset (by simp [commandClauses])
  exact .of_rule known (by simpa using settled_action)

theorem settled_special : Settled s.clauses "$special" := by
  have known : .rule "$special" [.word ("special:" ++ "yes")] ∈ s.clauses :=
    s.commandClauses_subset (by simp [commandClauses, specialAnswers])
  exact .of_rule known (by simp)

def functionNames : FunctionKind → String × String
  | .query => ("$query_function", "$queries_")
  | .action => ("$action_function", "$actions_")

def callClauses (s : Schema) (function : TypedFunction) : List Clause :=
  let (lhs, group) := functionNames function.kind
  if s.splitDevices then
    [.rule lhs [.word (deviceWord true function.device), .nonterminal (group ++ function.device)],
      .rule (group ++ function.device) [.word function.word]]
  else [.rule lhs [.word function.word]]

theorem functionClauses_eq : s.functionClauses = s.functions.flatMap s.callClauses := by
  rw [functionClauses]
  rfl

theorem callClauses_subset {function : TypedFunction} (member : function ∈ s.functions) : s.callClauses function ⊆ s.clauses :=
  fun _ inside => s.functionClauses_subset (functionClauses_eq ▸ List.mem_flatMap.mpr ⟨function, member, inside⟩)

theorem settled_function {kind : FunctionKind} (some : s.hasKind kind = true) : Settled s.clauses (functionNames kind).1 := by
  obtain ⟨function, member, same⟩ := List.any_eq_true.mp some
  obtain rfl : function.kind = kind := of_decide_eq_true same
  have within := callClauses_subset member
  simp only [callClauses] at within
  split at within
  next =>
    rw [List.cons_subset, List.cons_subset] at within
    have last : Settled s.clauses ((functionNames function.kind).2 ++ function.device) := .of_rule within.2.1 (by simp)
    exact .of_rule within.1 (by simpa using last)
  next =>
    rw [List.cons_subset] at within
    exact .of_rule within.1 (by simp)

theorem supplies_functionClauses : Supplies s.clauses s.functionClauses := by
  rw [functionClauses_eq, Supplies.flatMap]
  intro function member
  have within := callClauses_subset member
  simp only [callClauses] at within ⊢
  split at within
  next divided =>
    rw [List.cons_subset, List.cons_subset] at within
    have last : Settled s.clauses ((functionNames function.kind).2 ++ function.device) := .of_rule within.2.1 (by simp)
    simp [divided, last]
  next joined => simp [joined]

theorem settled_table (some : s.hasKind .query = true) :
    Settled s.clauses "$table" ∧ Settled s.clauses "$get_query" := by
  have function : Settled s.clauses "$query_function" := settled_function some
  have query : .rule "$get_query" [.nonterminal "$query_function"] ∈ s.clauses :=
    s.commandClauses_subset (by simp [commandClauses, some])
  have table : .rule "$table" [.nonterminal "$get_query"] ∈ s.clauses :=
    s.commandClauses_subset (by simp [commandClauses, some])
  have settled : Settled s.clauses "$get_query" := .of_rule query (by simpa using function)
  exact ⟨.of_rule table (by simpa using settled), settled⟩

theorem settled_call (some : s.hasKind .action = true) : Settled s.clauses "$call" := by
  have function : Settled s.clauses "$action_function" := settled_function some
  have known : .rule "$call" [.nonterminal "$action_function"] ∈ s.clauses :=
    s.commandClauses_subset (by simp [commandClauses, some])
  exact .of_rule known (by simpa using function)

theorem settled_output {param : Param} (member : param ∈ s.params) :
    Settled s.clauses param.type.outputName ∧ Settled s.clauses "$out_param_Any" := by
  have within : ∀ clause ∈ [Clause.rule param.type.outputName [.word param.word],
      .rule "$out_param_Any" [.nonterminal param.type.outputName]], clause ∈ s.clauses :=
    fun _ inside => s.outputClauses_subset (List.mem_flatMap.mpr ⟨param, member, inside⟩)
  simp only [List.forall_mem_cons] at within
  have settled : Settled s.clauses param.type.outputName := .of_rule within.1 (by simp)
  exact ⟨settled, .of_rule within.2.1 (by simpa using settled)⟩

theorem supplies_outputClauses : Supplies s.clauses s.outputClauses := by
  rw [outputClauses, Supplies.flatMap]
  intro param member
  simpa using (settled_output member).1

theorem conditionClauses_subset (read : type ∈ s.outputTypes) : s.conditionClauses type ⊆ s.clauses := by
  have some : s.outputTypes.isEmpty = false := List.isEmpty_eq_false_iff_exists_mem.mpr ⟨type, read⟩
  intro clause inside
  refine s.filterClauses_subset ?_
  rw [filterClauses, some]
  exact List.mem_append_left _ (List.mem_flatMap.mpr ⟨_, read, inside⟩)

theorem mem_outputTypes : type ∈ s.outputTypes ↔ ∃ param ∈ s.params, param.type = type := by
  rw [outputTypes, List.mem_eraseDups, List.mem_map]

namespace Furnished

variable (furnished : s.Furnished)

include furnished

theorem durations (declared : s.hasDurations = true) : (s.catalog.units.get? durationFamily).getD [] ≠ [] :=
  furnished.units _ (OrderedMap.contains_iff.mp declared)

/-- Every type of an answer has values, because devices are asked for only if there are any. -/
theorem populates_answer (answers : type ∈ s.answerTypes) : s.Populates type := by
  simp only [answerTypes, List.flatten_cons, List.flatten_nil, List.append_nil, List.mem_append] at answers
  rcases answers with plain | entity | measure
  · simp only [List.mem_cons, List.not_mem_nil, or_false] at plain
    rcases plain with rfl | rfl | rfl | rfl | rfl | rfl | rfl <;> (constructor <;> simp [ParamType.element])
  · obtain ⟨kind, listed, rfl⟩ := List.mem_map.mp entity
    have devices : kind = deviceEntity → s.catalog.devices ≠ [] := by
      intro device nothing
      simp [entityKinds, nothing, device] at listed
    constructor
    · exact fun same => devices (ParamType.entity.inj same)
    · simp [ParamType.element]
    · simp [ParamType.element]
  · obtain ⟨family, listed, rfl⟩ := List.mem_map.mp measure
    constructor
    · simp [ParamType.element]
    · exact fun other same => ParamType.measure.inj same ▸ furnished.units family listed
    · simp [ParamType.element]

theorem settled_answer (answers : type ∈ s.answerTypes) : Settled s.clauses type.constantName := by
  refine (supplies_constantClauses furnished.durations (furnished.populates_answer answers) ?_).2
  intro clause member
  exact s.answerClauses_subset (List.mem_append_left _ (List.mem_flatMap.mpr ⟨type, answers, List.mem_append_left _ member⟩))

theorem settled_anyConstant : Settled s.clauses "$constant_Any" := by
  have string : Settled s.clauses ParamType.string.constantName := furnished.settled_answer (by simp [answerTypes])
  have known : .rule "$constant_Any" [.nonterminal ParamType.string.constantName] ∈ s.clauses := by
    refine s.answerClauses_subset (List.mem_append_left _ (List.mem_flatMap.mpr ⟨.string, ?_, ?_⟩))
    · simp [answerTypes]
    · simp
  exact .of_rule known (by simpa using string)

theorem settled_stream : Settled s.clauses "$stream" := by
  have time : Settled s.clauses ParamType.time.constantName := furnished.settled_answer (by simp [answerTypes])
  have known : .rule "$stream" [.word "attimer", .word "time", .word "=", .nonterminal ParamType.time.constantName] ∈ s.clauses :=
    s.commandClauses_subset (by simp [commandClauses])
  exact .of_rule known (by simpa using time)

/-- Constants of an answer that stand anywhere among the clauses. -/
theorem supplies_answer (answers : type ∈ s.answerTypes) (within : s.constantClauses type ⊆ clauses) :
    Supplies clauses (s.constantClauses type) :=
  (supplies_constantClauses furnished.durations (furnished.populates_answer answers) within).1

theorem supplies_commandClauses : Supplies s.clauses s.commandClauses := by
  have time : ParamType.time ∈ s.answerTypes := by simp [answerTypes]
  have date : ParamType.date ∈ s.answerTypes := by simp [answerTypes]
  have timed : Supplies s.clauses (s.constantClauses .time) :=
    furnished.supplies_answer time fun clause member => s.commandClauses_subset (by simp [commandClauses, member])
  have queries : Supplies s.clauses (if s.hasKind .query then
      [.rule "$rule" [.word "now", .word "=>", .nonterminal "$table", .word "=>", .nonterminal "$action"],
        .rule "$table" [.nonterminal "$get_query"],
        .rule "$get_query" [.nonterminal "$query_function"],
        .rule "$stream" [.word "monitor", .word "(", .nonterminal "$table", .word ")"]]
    else []) := by
    split
    next some =>
      have function : Settled s.clauses "$query_function" := settled_function some
      simp [settled_table some, function, settled_action]
    next => exact .nil
  have actions : Supplies s.clauses (if s.hasKind .action then
      [.rule "$action" [.nonterminal "$call"], .rule "$call" [.nonterminal "$action_function"]]
    else []) := by
    split
    next some =>
      have function : Settled s.clauses "$action_function" := settled_function some
      simp [settled_call some, function]
    next => exact .nil
  have timers : Supplies s.clauses (if s.hasDurations then
      s.constantClauses .date ++ (s.constantClauses (.measure durationFamily) ++
      [.rule "$stream" [.word "timer", .word "base", .word "=", .nonterminal ParamType.date.constantName, .word ",",
        .word "interval", .word "=", .nonterminal (ParamType.measure durationFamily).constantName]])
    else []) := by
    split
    next some =>
      have duration : ParamType.measure durationFamily ∈ s.answerTypes := by
        simpa [answerTypes] using OrderedMap.contains_iff.mp some
      have dates := furnished.supplies_answer date fun clause member =>
        s.commandClauses_subset (by simp [commandClauses, member, some])
      have durations := furnished.supplies_answer duration fun clause member =>
        s.commandClauses_subset (by simp [commandClauses, member, some])
      simp [dates, durations, furnished.settled_answer date, furnished.settled_answer duration]
    next => exact .nil
  simp [commandClauses, queries, actions, timed, timers, startName, settled_rule, settled_special, settled_action,
    furnished.settled_anyConstant, furnished.settled_stream, furnished.settled_answer time]

theorem supplies_inputClauses : Supplies s.clauses s.inputClauses := by
  rw [inputClauses, Supplies.flatMap]
  intro param listed
  have member : param ∈ s.params := (List.mem_filter.mp listed).1
  have within : s.valueClauses param.type ⊆ s.clauses := fun clause inside =>
    s.inputClauses_subset (List.mem_flatMap.mpr ⟨param, listed, by simp [inside]⟩)
  have values := (supplies_valueClauses furnished.durations (furnished.params param member) within).1
  have given := (supplied_givenForms furnished.durations (furnished.params param member) within).2
  obtain ⟨output, any⟩ := settled_output member
  simp only [List.flatten_cons, List.flatten_nil, Supplies.append, Supplies.map]
  refine ⟨values, fun form inside => ?_, ?_⟩
  · simpa using given form inside
  · split <;> simp [output, any]

theorem settled_giving (some : s.params.any (·.flow = .input) = true) :
    Settled s.clauses "$const_param" ∧ Settled s.clauses "$param_passing" := by
  obtain ⟨param, member, flow⟩ := List.any_eq_true.mp some
  have listed : param ∈ s.params.filter (·.flow = .input) := List.mem_filter.mpr ⟨member, flow⟩
  have within : ∀ part ∈ [s.valueClauses param.type,
      (givenForms param.type).map fun form => .rule "$const_param" ([.word param.word, .word "="] ++ form),
      if param.type = .string then
        [.rule "$param_passing" ([.word param.word, .word "="] ++ [.word "event"]),
          .rule "$param_passing" ([.word param.word, .word "="] ++ [.nonterminal "$out_param_Any"])]
      else [.rule "$param_passing" ([.word param.word, .word "="] ++ [.nonterminal param.type.outputName])]], part ⊆ s.clauses :=
    fun part inside clause here =>
      s.inputClauses_subset (List.mem_flatMap.mpr ⟨param, listed, List.mem_flatten.mpr ⟨part, inside, here⟩⟩)
  simp only [List.forall_mem_cons] at within
  obtain ⟨values, forms, passed, _⟩ := within
  obtain ⟨given, supplied⟩ := supplied_givenForms furnished.durations (furnished.params param member) values
  obtain ⟨form, first⟩ := List.exists_mem_of_ne_nil _ given
  refine ⟨.of_rule (forms (List.mem_map_of_mem first)) (by simpa using supplied form first), ?_⟩
  split at passed
  next => exact .of_rule (passed (List.mem_cons_self ..)) (by simp)
  next => exact .of_rule (passed (List.mem_cons_self ..)) (by simpa using (settled_output member).1)

theorem supplies_givingClauses : Supplies s.clauses s.givingClauses := by
  rw [givingClauses]
  split
  next some =>
    obtain ⟨const, passing⟩ := furnished.settled_giving some
    rw [Supplies.append]
    constructor
    · split
      next queries => simp [settled_table queries, const]
      next => exact .nil
    · split
      next actions => simp [settled_call actions, const, passing]
      next => exact .nil
  next => exact .nil

theorem supplies_filterClauses : Supplies s.clauses s.filterClauses := by
  by_cases nothing : s.outputTypes.isEmpty = true
  · simp [filterClauses, nothing]
  · have within := s.filterClauses_subset
    have conditions : ∀ type ∈ s.outputTypes,
        Supplies s.clauses (s.conditionClauses type) ∧ Settled s.clauses "$atom_filter" := by
      intro type read
      have asked := conditionClauses_subset read
      obtain ⟨param, member, rfl⟩ := mem_outputTypes.mp read
      have populates := furnished.params param member
      obtain ⟨result, _⟩ := settled_output member
      exact ⟨supplies_conditionClauses furnished.durations populates result asked,
        settled_condition furnished.durations populates result asked⟩
    rw [filterClauses, if_neg nothing] at within ⊢
    simp only [List.flatten_cons, List.flatten_nil, List.append_subset, List.cons_subset] at within
    obtain ⟨first, listed⟩ := List.exists_mem_of_ne_nil _ (mt List.isEmpty_iff.mpr nothing)
    have atom := (conditions first listed).2
    have joined : Settled s.clauses "$or_filter" := .of_rule within.2.1.2.2.1 (by simpa using atom)
    have filter : Settled s.clauses "$filter" := .of_rule within.2.1.1 (by simpa using joined)
    have tables : Supplies s.clauses (if s.hasKind .query then
        [.rule "$table" [.word "(", .nonterminal "$table", .word ")", .word "filter", .nonterminal "$filter"]] else []) := by
      split
      next some => simp [settled_table some, filter]
      next => exact .nil
    simpa [tables, atom, joined, filter, furnished.settled_stream] using fun type read => (conditions type read).1

theorem supplies_answerClauses : Supplies s.clauses s.answerClauses := by
  rw [answerClauses, Supplies.append, Supplies.flatMap]
  refine ⟨fun type answers => ?_, by simp⟩
  have within : s.constantClauses type ⊆ s.clauses := fun clause inside =>
    s.answerClauses_subset (List.mem_append_left _ (List.mem_flatMap.mpr ⟨type, answers, List.mem_append_left _ inside⟩))
  simpa using ⟨furnished.supplies_answer answers within, furnished.settled_answer answers⟩

/-- No clause of a furnished schema relies on anything that is missing. -/
theorem supplies_clauses : Supplies s.clauses s.clauses := by
  intro clause member
  simp only [clauses, List.mem_append, or_assoc] at member
  rcases member with command | function | output | input | giving | filter | answer
  · exact furnished.supplies_commandClauses _ command
  · exact supplies_functionClauses _ function
  · exact supplies_outputClauses _ output
  · exact furnished.supplies_inputClauses _ input
  · exact furnished.supplies_givingClauses _ giving
  · exact furnished.supplies_filterClauses _ filter
  · exact furnished.supplies_answerClauses _ answer

end Furnished

end Schema

end CommandLang
