import CommandLang.Proofs.Productions
import CommandLang.Proofs.Reachability

/-! Where programs lead to. Each clause of a schema in which every type in use has values belongs to a nonterminal that
programs lead to, unless it is about what is passed on to parameters and nothing asks for that. -/

namespace CommandLang

namespace Schema

variable {s : Schema} {type : ParamType} {lhs name : String} {rhs : Rhs}

abbrev Reaches (s : Schema) : String → Prop := Reached (fun lhs rhs => .rule lhs rhs ∈ s.clauses) startName

def takesText (s : Schema) : Bool := s.params.any fun param => param.flow = .input && param.type = .string

theorem exists_function_of_mem_params {param : Param} (member : param ∈ s.params) : ∃ kind, s.hasKind kind = true := by
  obtain ⟨function, known, _⟩ := List.mem_flatMap.mp (List.mem_eraseDups.mp member)
  exact ⟨function.kind, List.any_eq_true.mpr ⟨function, known, by simp⟩⟩

theorem reaches_rule : s.Reaches "$rule" :=
  .used .start (s.commandClauses_subset (by simp [commandClauses]) : .rule startName [.nonterminal "$rule"] ∈ s.clauses) (by simp)

theorem reaches_special : s.Reaches "$special" :=
  .used .start (s.commandClauses_subset (by simp [commandClauses]) :
    .rule startName [.word "bookkeeping", .word "special", .nonterminal "$special"] ∈ s.clauses) (by simp)

theorem reaches_anyConstant : s.Reaches "$constant_Any" :=
  .used .start (s.commandClauses_subset (by simp [commandClauses]) :
    .rule startName [.word "bookkeeping", .word "answer", .nonterminal "$constant_Any"] ∈ s.clauses) (by simp)

theorem reaches_stream : s.Reaches "$stream" ∧ s.Reaches "$action" := by
  have known : .rule "$rule" [.nonterminal "$stream", .word "=>", .nonterminal "$action"] ∈ s.clauses :=
    s.commandClauses_subset (by simp [commandClauses])
  exact ⟨.used reaches_rule known (by simp), .used reaches_rule known (by simp)⟩

/-- Queries are reached through what a table begins with. -/
theorem reaches_table (asks : s.hasKind .query = true) :
    s.Reaches "$table" ∧ s.Reaches "$get_query" ∧ s.Reaches "$query_function" := by
  have command : .rule "$rule" [.word "now", .word "=>", .nonterminal "$table", .word "=>", .nonterminal "$action"] ∈ s.clauses :=
    s.commandClauses_subset (by simp [commandClauses, asks])
  have query : .rule "$table" [.nonterminal "$get_query"] ∈ s.clauses := s.commandClauses_subset (by simp [commandClauses, asks])
  have function : .rule "$get_query" [.nonterminal "$query_function"] ∈ s.clauses :=
    s.commandClauses_subset (by simp [commandClauses, asks])
  have table : s.Reaches "$table" := .used reaches_rule command (by simp)
  have got : s.Reaches "$get_query" := .used table query (by simp)
  exact ⟨table, got, .used got function (by simp)⟩

theorem reaches_call (acts : s.hasKind .action = true) : s.Reaches "$call" ∧ s.Reaches "$action_function" := by
  have action : .rule "$action" [.nonterminal "$call"] ∈ s.clauses := s.commandClauses_subset (by simp [commandClauses, acts])
  have function : .rule "$call" [.nonterminal "$action_function"] ∈ s.clauses :=
    s.commandClauses_subset (by simp [commandClauses, acts])
  have call : s.Reaches "$call" := .used reaches_stream.2 action (by simp)
  exact ⟨call, .used call function (by simp)⟩

theorem reaches_function {kind : FunctionKind} (some : s.hasKind kind = true) : s.Reaches (functionNames kind).1 := by
  cases kind with
  | query => exact (reaches_table some).2.2
  | action => exact (reaches_call some).2

/-- Parameters are given constants in queries as well as in actions. -/
theorem reaches_constParam {param : Param} (takes : s.Takes param) : s.Reaches "$const_param" := by
  have given : s.params.any (·.flow = .input) = true := List.any_eq_true.mpr ⟨param, takes.1, by simp [takes.2]⟩
  obtain ⟨kind, some⟩ := exists_function_of_mem_params takes.1
  cases kind with
  | query =>
    have known : .rule "$get_query" [.nonterminal "$get_query", .nonterminal "$const_param"] ∈ s.clauses :=
      s.givingClauses_subset (by simp [givingClauses, given, some])
    exact .used (reaches_table some).2.1 known (by simp)
  | action =>
    have known : .rule "$call" [.nonterminal "$call", .nonterminal "$const_param"] ∈ s.clauses :=
      s.givingClauses_subset (by simp [givingClauses, given, some])
    exact .used (reaches_call some).1 known (by simp)

theorem reaches_passing (acts : s.hasKind .action = true) {param : Param} (takes : s.Takes param) : s.Reaches "$param_passing" := by
  have given : s.params.any (·.flow = .input) = true := List.any_eq_true.mpr ⟨param, takes.1, by simp [takes.2]⟩
  have known : .rule "$call" [.nonterminal "$call", .nonterminal "$param_passing"] ∈ s.clauses :=
    s.givingClauses_subset (by simp [givingClauses, given, acts])
  exact .used (reaches_call acts).1 known (by simp)

theorem reaches_answer (answers : type ∈ s.answerTypes) : s.Reaches type.constantName := by
  have known : .rule "$constant_Any" [.nonterminal type.constantName] ∈ s.clauses :=
    s.answerClauses_subset (List.mem_append_left _ (List.mem_flatMap.mpr ⟨type, answers, by simp⟩))
  exact .used reaches_anyConstant known (by simp)

theorem reaches_durations (declared : s.hasDurations = true) : s.Reaches (ParamType.measure durationFamily).constantName :=
  reaches_answer (by simpa [answerTypes] using OrderedMap.contains_iff.mp declared)

end Schema

/-- A rule is of use if programs lead to its nonterminal, unless it is one of what is passed on and nothing asks for it. -/
def Clause.Useful (s : Schema) : Clause → Prop
  | .rule lhs _ => (lhs = "$param_passing" → s.hasKind .action = true) →
    (lhs = "$out_param_Any" → s.hasKind .action = true ∧ s.takesText = true) → s.Reaches lhs
  | _ => True

section

variable {s : Schema} {lhs name : String} {rhs : Rhs}

@[simp] theorem Clause.useful_values : (Clause.values name).Useful s := trivial

@[simp] theorem Clause.useful_quotation : Clause.quotation.Useful s := trivial

theorem Schema.Reaches.useful (reached : s.Reaches lhs) : (Clause.rule lhs rhs).Useful s := fun _ _ => reached

end

namespace Schema

variable {s : Schema} {type : ParamType}

theorem useful_constantRules (reached : s.Reaches type.constantName) (productions : List Rhs) :
    ∀ clause ∈ constantRules type productions, clause.Useful s := by
  rw [constantRules, List.forall_mem_map]
  exact fun _ _ => reached.useful

theorem useful_numberClauses : ∀ clause ∈ numberClauses, clause.Useful s := by
  rw [numberClauses, List.forall_mem_cons]
  exact ⟨trivial, useful_constantRules (reaches_answer (by simp [answerTypes])) _⟩

theorem useful_stringClauses : ∀ clause ∈ stringClauses, clause.Useful s := by
  rw [stringClauses, List.forall_mem_cons]
  exact ⟨trivial, useful_constantRules (reaches_answer (by simp [answerTypes])) _⟩

theorem useful_measureClauses {family : String} (reached : s.Reaches (ParamType.measure family).constantName) :
    ∀ clause ∈ s.measureClauses family, clause.Useful s := by
  rw [measureClauses, List.forall_mem_append]
  refine ⟨useful_numberClauses, ?_⟩
  split
  next same =>
    rw [List.forall_mem_cons]
    exact ⟨trivial, useful_constantRules reached _⟩
  next => exact useful_constantRules reached _

/-- The values of a type are spelled out, or they are its constants. -/
theorem valueForms_cases (s : Schema) (type : ParamType) : s.valueClauses type = [] ∨
    type.valueForms = [[.nonterminal type.constantName]] ∧ s.valueClauses type = s.constantClauses type := by
  cases type <;> simp [valueClauses, ParamType.valueForms]

/-- If programs lead to the constants of a type, they lead to those that these are made of. -/
theorem useful_constantClauses (reached : s.Reaches type.constantName) (within : s.constantClauses type ⊆ s.clauses) :
    ∀ clause ∈ s.constantClauses type, clause.Useful s := by
  induction type with
  | string => exact useful_stringClauses
  | number => exact useful_numberClauses
  | measure family => exact useful_measureClauses reached
  | boolean | enumeration => exact useful_constantRules reached _
  | time | currency =>
    rw [constantClauses, List.forall_mem_cons]
    exact ⟨trivial, useful_constantRules reached _⟩
  | location =>
    rw [constantClauses, locationClauses, List.forall_mem_cons]
    exact ⟨trivial, useful_constantRules reached _⟩
  | date =>
    rw [constantClauses, dateClauses, List.forall_mem_cons]
    refine ⟨trivial, ?_⟩
    split
    next durations =>
      rw [List.forall_mem_append]
      exact ⟨useful_measureClauses (reaches_durations durations), useful_constantRules reached _⟩
    next => exact useful_constantRules reached _
  | entity kind =>
    rw [constantClauses, entityClauses]
    split
    next => exact useful_constantRules reached _
    next =>
      rw [List.forall_mem_cons]
      refine ⟨trivial, ?_⟩
      split
      next =>
        rw [List.forall_mem_append]
        exact ⟨useful_stringClauses, useful_constantRules reached _⟩
      next => exact useful_constantRules reached _
  | array element ih =>
    rw [constantClauses_array, List.append_subset] at within
    rw [constantClauses_array, List.forall_mem_append]
    refine ⟨?_, useful_constantRules reached _⟩
    rcases valueForms_cases s element with none | ⟨forms, same⟩
    · simp [none]
    · rw [same] at within ⊢
      have known : .rule (ParamType.array element).constantName [.nonterminal element.constantName] ∈ s.clauses :=
        within.2 (by simp [constantRules, forms])
      exact ih (.used reached known (by simp)) within.1

/-- The clauses that come with the forms of a value, if programs lead to some rule with such a form. -/
theorem useful_valueClauses (within : s.valueClauses type ⊆ s.clauses)
    (asked : [.nonterminal type.constantName] ∈ type.valueForms → s.Reaches type.constantName) :
    ∀ clause ∈ s.valueClauses type, clause.Useful s := by
  rcases valueForms_cases s type with none | ⟨forms, same⟩
  · simp [none]
  · rw [same] at within ⊢
    exact useful_constantClauses (asked (by simp [forms])) within

theorem useful_commandClauses : ∀ clause ∈ s.commandClauses, clause.Useful s := by
  have constants : ∀ {type}, type ∈ s.answerTypes → s.constantClauses type ⊆ s.commandClauses →
      ∀ clause ∈ s.constantClauses type, clause.Useful s := fun answers within =>
    useful_constantClauses (reaches_answer answers) fun clause member => s.commandClauses_subset (within member)
  have commands : ∀ {rhs}, (Clause.rule "$rule" rhs).Useful s ∧ (Clause.rule "$special" rhs).Useful s ∧
      (Clause.rule "$stream" rhs).Useful s ∧ (Clause.rule "$action" rhs).Useful s :=
    ⟨reaches_rule.useful, reaches_special.useful, reaches_stream.1.useful, reaches_stream.2.useful⟩
  have input : ∀ {rhs}, (Clause.rule startName rhs).Useful s := fun _ _ => .start
  simp only [commandClauses, List.flatten_cons, List.flatten_nil, List.append_nil, List.forall_mem_append]
  refine ⟨?_, ?_, ?_, ?_, ?_, ?_, ?_, ?_⟩
  · simp [input]
  · simp [commands]
  · simp [commands]
  · split
    next asks =>
      obtain ⟨table, query, _⟩ := reaches_table asks
      simp [commands, table.useful, query.useful]
    next => simp
  · split
    next acts => simp [commands, (reaches_call acts).1.useful]
    next => simp
  · exact constants (by simp [answerTypes]) fun clause member => by simp [commandClauses, member]
  · simp [commands]
  · split
    next declared =>
      have durations : ParamType.measure durationFamily ∈ s.answerTypes := by
        simpa [answerTypes] using OrderedMap.contains_iff.mp declared
      simp only [List.forall_mem_append, List.forall_mem_singleton]
      refine ⟨⟨?_, ?_⟩, commands.2.2.1⟩
      · exact constants (by simp [answerTypes]) fun clause member => by simp [commandClauses, member, declared]
      · exact constants durations fun clause member => by simp [commandClauses, member, declared]
    next => simp

theorem useful_functionClauses : ∀ clause ∈ s.functionClauses, clause.Useful s := by
  rw [functionClauses_eq, List.forall_mem_flatMap]
  intro function member
  have caller : s.Reaches (functionNames function.kind).1 :=
    reaches_function (List.any_eq_true.mpr ⟨function, member, by simp⟩)
  have within := callClauses_subset member
  simp only [callClauses] at within ⊢
  split at within
  next divided =>
    rw [if_pos divided, List.forall_mem_cons, List.forall_mem_singleton]
    rw [List.cons_subset] at within
    have group : s.Reaches ((functionNames function.kind).2 ++ function.device) := .used caller within.1 (by simp)
    exact ⟨caller.useful, group.useful⟩
  next joined =>
    rw [if_neg joined, List.forall_mem_singleton]
    exact caller.useful

/-- Programs lead to conditions if there is anything to compare. -/
theorem reaches_filter {param : Param} (member : param ∈ s.params) :
    s.Reaches "$filter" ∧ s.Reaches "$or_filter" ∧ s.Reaches "$atom_filter" := by
  have some : s.outputTypes.isEmpty = false := by
    rw [List.isEmpty_eq_false_iff_exists_mem]
    exact ⟨param.type, List.mem_eraseDups.mpr (List.mem_map_of_mem member)⟩
  have edge : .rule "$stream" [.word "edge", .word "(", .nonterminal "$stream", .word ")", .word "on", .nonterminal "$filter"] ∈
      s.clauses := s.filterClauses_subset (by simp [filterClauses, some])
  have all : .rule "$filter" [.nonterminal "$or_filter"] ∈ s.clauses := s.filterClauses_subset (by simp [filterClauses, some])
  have one : .rule "$or_filter" [.nonterminal "$atom_filter"] ∈ s.clauses := s.filterClauses_subset (by simp [filterClauses, some])
  have filter : s.Reaches "$filter" := .used reaches_stream.1 edge (by simp)
  have conjunct : s.Reaches "$or_filter" := .used filter all (by simp)
  exact ⟨filter, conjunct, .used conjunct one (by simp)⟩

/-- Some condition is about the results of each type. -/
theorem exists_condition (populates : s.Populates type) (read : type ∈ s.outputTypes) :
    ∃ rhs, .rule "$atom_filter" (.nonterminal type.outputName :: rhs) ∈ s.clauses := by
  have within := conditionClauses_subset read
  by_cases array : ∃ element, type = .array element
  · obtain ⟨element, rfl⟩ := array
    obtain ⟨form, listed⟩ := (populates_array.mp populates).exists_form
    exact ⟨_, within (List.mem_append_right _ (List.mem_map_of_mem listed))⟩
  · have plain : ∀ element, type ≠ .array element := fun element same => array ⟨element, same⟩
    obtain ⟨form, listed⟩ := populates.exists_form
    refine ⟨_, within (a := .rule "$atom_filter" (.nonterminal type.outputName :: .word "==" :: form)) ?_⟩
    rw [conditionClauses_eq plain]
    simp only [List.mem_append, List.mem_flatMap, List.mem_map]
    exact Or.inl (Or.inl (Or.inr ⟨_, equals_mem_operators plain, form, listed, rfl⟩))

theorem reaches_output (furnished : s.Furnished) {param : Param} (member : param ∈ s.params) :
    s.Reaches param.type.outputName := by
  obtain ⟨rhs, known⟩ := exists_condition (furnished.params param member) (mem_outputTypes.mpr ⟨param, member, rfl⟩)
  exact .used (reaches_filter member).2.2 known (List.mem_cons_self ..)

theorem useful_outputClauses (furnished : s.Furnished) : ∀ clause ∈ s.outputClauses, clause.Useful s := by
  rw [outputClauses, List.forall_mem_flatMap]
  intro param member
  rw [List.forall_mem_cons, List.forall_mem_singleton]
  refine ⟨(reaches_output furnished member).useful, fun _ asked => ?_⟩
  obtain ⟨acts, takes⟩ := asked rfl
  obtain ⟨receiver, listed, text⟩ := List.any_eq_true.mp takes
  rw [Bool.and_eq_true, decide_eq_true_eq, decide_eq_true_eq] at text
  have known : .rule "$param_passing" [.word receiver.word, .word "=", .nonterminal "$out_param_Any"] ∈ s.clauses :=
    s.inputClauses_subset (List.mem_flatMap.mpr ⟨receiver, List.mem_filter.mpr ⟨listed, by simpa using text.1⟩, by simp [text.2]⟩)
  exact .used (reaches_passing acts ⟨listed, text.1⟩) known (by simp)

/-- Where the constants of a type are values, they are given to parameters of the type. -/
theorem exists_givenForm (valued : [.nonterminal type.constantName] ∈ type.valueForms) :
    ∃ form ∈ givenForms type, .nonterminal type.constantName ∈ form := by
  cases type with
  | array element => simp [givenForms]
  | _ => exact ⟨_, valued, List.mem_singleton_self _⟩

theorem useful_inputClauses : ∀ clause ∈ s.inputClauses, clause.Useful s := by
  have within := s.inputClauses_subset
  rw [inputClauses] at within ⊢
  rw [List.forall_mem_flatMap]
  intro param listed
  obtain ⟨member, flow⟩ := List.mem_filter.mp listed
  have takes : s.Takes param := ⟨member, of_decide_eq_true flow⟩
  have given := reaches_constParam takes
  have values : s.valueClauses param.type ⊆ s.clauses := fun clause inside =>
    within (List.mem_flatMap.mpr ⟨param, listed, by simp [inside]⟩)
  have forms : ∀ form ∈ givenForms param.type, .rule "$const_param" (.word param.word :: .word "=" :: form) ∈ s.clauses := by
    intro form known
    exact within (List.mem_flatMap.mpr ⟨param, listed, by simp [known]⟩)
  simp only [List.flatten_cons, List.flatten_nil, List.append_nil, List.forall_mem_append, List.forall_mem_map]
  refine ⟨useful_valueClauses values fun valued => ?_, fun _ _ => given.useful, ?_⟩
  · obtain ⟨form, known, used⟩ := exists_givenForm valued
    exact .used given (forms form known) (by simp [used])
  · have passing : ∀ {rhs}, (Clause.rule "$param_passing" rhs).Useful s := fun asked _ => reaches_passing (asked rfl) takes
    split <;> simp [passing]

theorem useful_givingClauses : ∀ clause ∈ s.givingClauses, clause.Useful s := by
  rw [givingClauses]
  split
  next =>
    rw [List.forall_mem_append]
    constructor
    · split
      next asks => exact List.forall_mem_singleton.mpr (reaches_table asks).2.1.useful
      next => simp
    · split
      next acts => simp [(reaches_call acts).1.useful]
      next => simp
  next => simp

theorem useful_conditionClauses {param : Param} (member : param ∈ s.params) :
    ∀ clause ∈ s.conditionClauses param.type, clause.Useful s := by
  have within := conditionClauses_subset (mem_outputTypes.mpr ⟨param, member, rfl⟩)
  have filter := (reaches_filter member).2.2
  generalize param.type = type at within
  by_cases array : ∃ element, type = .array element
  · obtain ⟨element, rfl⟩ := array
    rw [conditionClauses_array] at within ⊢
    rw [List.append_subset] at within
    rw [List.forall_mem_append, List.forall_mem_map]
    refine ⟨useful_valueClauses within.1 fun valued => ?_, fun _ _ => filter.useful⟩
    exact .used filter (within.2 (List.mem_map_of_mem valued)) (by simp)
  · have plain : ∀ element, type ≠ .array element := fun element same => array ⟨element, same⟩
    rw [conditionClauses_eq plain] at within ⊢
    simp only [List.append_subset] at within
    obtain ⟨⟨⟨values, compared⟩, _⟩, sought⟩ := within
    simp only [List.forall_mem_append, List.forall_mem_flatMap, List.forall_mem_map]
    refine ⟨⟨⟨useful_valueClauses values fun valued => ?_, fun _ _ _ _ => filter.useful⟩, ?_⟩, ?_⟩
    · have known := compared (List.mem_flatMap.mpr ⟨_, equals_mem_operators plain, List.mem_map_of_mem valued⟩)
      exact .used filter known (by simp)
    · split
      next => exact List.forall_mem_singleton.mpr filter.useful
      next => simp
    · split at sought
      next looked =>
        rw [if_pos looked, List.forall_mem_append, List.forall_mem_singleton]
        rw [List.append_subset, List.cons_subset] at sought
        exact ⟨useful_constantClauses (.used filter sought.2.1 (by simp)) sought.1, filter.useful⟩
      next unlooked => simp [unlooked]

theorem useful_filterClauses : ∀ clause ∈ s.filterClauses, clause.Useful s := by
  rw [filterClauses]
  split
  next => simp
  next some =>
    have read : ∃ type, type ∈ s.outputTypes := by simpa [List.isEmpty_iff, List.eq_nil_iff_forall_not_mem] using some
    obtain ⟨_, read⟩ := read
    obtain ⟨param, member, _⟩ := mem_outputTypes.mp read
    obtain ⟨filter, conjunct, _⟩ := reaches_filter member
    simp only [List.flatten_cons, List.flatten_nil, List.append_nil, List.forall_mem_append, List.forall_mem_flatMap]
    refine ⟨fun type read => ?_, ?_, ?_⟩
    · obtain ⟨other, inside, rfl⟩ := mem_outputTypes.mp read
      exact useful_conditionClauses inside
    · simp [filter.useful, conjunct.useful, reaches_stream.1.useful]
    · split
      next asks => exact List.forall_mem_singleton.mpr (reaches_table asks).1.useful
      next => simp

theorem useful_answerClauses : ∀ clause ∈ s.answerClauses, clause.Useful s := by
  have within := s.answerClauses_subset
  rw [answerClauses, List.append_subset] at within
  rw [answerClauses, List.forall_mem_append, List.forall_mem_flatMap, List.forall_mem_map]
  refine ⟨fun type answers => ?_, fun _ _ => reaches_anyConstant.useful⟩
  rw [List.forall_mem_append, List.forall_mem_singleton]
  refine ⟨useful_constantClauses (reaches_answer answers) fun clause inside => ?_, reaches_anyConstant.useful⟩
  exact within.1 (List.mem_flatMap.mpr ⟨type, answers, List.mem_append_left _ inside⟩)

/-- In every language programs lead to all rules but those of what is passed on. -/
theorem useful_clauses (furnished : s.Furnished) : ∀ clause ∈ s.clauses, clause.Useful s := by
  simp only [clauses, List.forall_mem_append]
  exact ⟨⟨⟨⟨⟨⟨useful_commandClauses, useful_functionClauses⟩, useful_outputClauses furnished⟩, useful_inputClauses⟩,
    useful_givingClauses⟩, useful_filterClauses⟩, useful_answerClauses⟩

end Schema

end CommandLang
