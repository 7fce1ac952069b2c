import CommandLang.Proofs.Sorting

/-! Schemas that fit the pattern. If what is spelled alike can be told apart, every rule of a schema is a rule of the
pattern. -/

namespace CommandLang

/-- What a schema spells alike can be told apart: a word stands for functions of one kind, if any are given values, and
for parameters of one type, and a unit for quantities of one family. No lists of lists are given. -/
structure Schema.Discernible (s : Schema) : Prop where
  spelled : ∀ function ∈ s.functions, "@".toList <+: function.word.toList
  kinds : ∀ param, s.Takes param → ∀ function ∈ s.functions, ∀ other ∈ s.functions,
    function.word = other.word → function.kind = other.kind
  types : ∀ param ∈ s.params, ∀ other ∈ s.params, param.word = other.word → param.type = other.type
  units : ∀ family other unit, unit ∈ (s.catalog.units.get? family).getD [] →
    unit ∈ (s.catalog.units.get? other).getD [] → family = other
  flat : ∀ inner, ¬ s.Listed (.array inner)

namespace Pattern

/-- What a symbol of a schema is in the pattern. -/
def fold (s : Schema) : Symbol Terminal String → Symbol Role Part := Symbol.map (ofTerminal s) ofName

def gives (s : Schema) : Bool := s.params.any (·.flow = .input)

variable {s : Schema} {type : ParamType} {param : Param} {form : Rhs}

@[simp] theorem fold_nonterminal (name : String) : fold s (.nonterminal name) = part (ofName name) := rfl

@[simp] theorem fold_valueOf (name : String) : fold s (.valueOf name) = word ((classRoles.lookup name).getD .entityValue) := rfl

@[simp] theorem fold_spanOf (name : String) : fold s (.spanOf name) = word .quote := rfl

theorem fold_word_of_mem {text : String} {role : Role} (known : (text, role) ∈ commonWords) : fold s (.word text) = word role :=
  congrArg Symbol.terminal (ofTerminal_of_mem known)

theorem fold_word_of_mark {mark : String} {role : Role} (known : (mark, role) ∈ wordMarks) (rest : String) :
    fold s (.word (mark ++ rest)) = word role :=
  congrArg Symbol.terminal (ofTerminal_of_mark known rest)

@[simp] theorem fold_member (member : String) : fold s (.word ("enum:" ++ member)) = word .member :=
  fold_word_of_mark (by simp [wordMarks]) member

@[simp] theorem fold_unit (unit : String) : fold s (.word ("unit:" ++ unit)) = word .unit :=
  fold_word_of_mark (by simp [wordMarks]) unit

@[simp] theorem fold_mark (kind : String) : fold s (.word ("^^" ++ kind)) = word .mark :=
  fold_word_of_mark (by simp [wordMarks]) kind

@[simp] theorem fold_place (place : String) : fold s (.word ("location:" ++ place)) = word .place :=
  fold_word_of_mark (by simp [wordMarks]) place

@[simp] theorem fold_equals : fold s (.word "=") = word .equals := fold_word_of_mem (by simp [commonWords])

@[simp] theorem fold_left : fold s (.word "[") = word .left := fold_word_of_mem (by simp [commonWords])

@[simp] theorem fold_right : fold s (.word "]") = word .right := fold_word_of_mem (by simp [commonWords])

@[simp] theorem fold_comma : fold s (.word ",") = word .comma := fold_word_of_mem (by simp [commonWords])

theorem gives_of_takes (takes : s.Takes param) : gives s = true :=
  List.any_eq_true.mpr ⟨param, takes.1, decide_eq_true takes.2⟩

theorem exists_takes (given : gives s = true) : ∃ param, s.Takes param := by
  obtain ⟨param, known, flow⟩ := List.any_eq_true.mp given
  exact ⟨param, known, of_decide_eq_true flow⟩

theorem fold_param (discernible : s.Discernible) (known : param ∈ s.params) :
    fold s (.word param.word) = word (ofParam param.type) := by
  have begins : "param:".toList <+: param.word.toList := by simp [Param.word]
  have found : ∃ other, s.params.find? (·.word = param.word) = some other := by
    rw [← Option.isSome_iff_exists, List.find?_isSome]
    exact ⟨param, known, by simp⟩
  obtain ⟨other, found⟩ := found
  have same : other.word = param.word := by simpa using List.find?_some found
  have role : ownRole s param.word = ofParam param.type := by
    rw [ownRole, found]
    exact congrArg ofParam (discernible.types other (List.mem_of_find?_eq_some found) param known same)
  exact congrArg Symbol.terminal ((ofTerminal_eq_ownRole (by simp) begins).trans role)

theorem ownRole_eq {text : String} (other : ¬ "param:".toList <+: text.toList) : ownRole s text =
    if s.functions.any fun function => function.kind = .query ∧ function.word = text then .query
    else if s.functions.any fun function => function.kind = .action ∧ function.word = text then .action
    else .device := by
  have unlisted : s.params.find? (·.word = text) = none := by
    rw [List.find?_eq_none]
    rintro param _ same
    obtain rfl := of_decide_eq_true same
    exact other (by simp [Param.word])
  rw [ownRole, unlisted]

theorem fold_device (splitDevices : Bool) (device : String) :
    ∃ role ∈ functionWords, fold s (.word (deviceWord splitDevices device)) = word role := by
  refine ⟨ownRole s (deviceWord splitDevices device), ?_, ?_⟩
  · rw [ownRole_eq (by cases splitDevices <;> simp [deviceWord])]
    split
    · decide
    · split <;> decide
  · cases splitDevices with
    | true =>
      have begins : "@".toList <+: (deviceWord true device).toList := by simp [deviceWord]
      exact congrArg Symbol.terminal (ofTerminal_eq_ownRole (by simp) begins)
    | false =>
      have begins : "device:".toList <+: (deviceWord false device).toList := by simp [deviceWord]
      exact congrArg Symbol.terminal (ofTerminal_eq_ownRole (by simp) begins)

section Functions

variable (discernible : s.Discernible) {function : TypedFunction} (known : function ∈ s.functions)

include discernible known

private theorem fold_function : fold s (.word function.word) = word
    (if s.functions.any fun other => other.kind = .query ∧ other.word = function.word then .query
    else if s.functions.any fun other => other.kind = .action ∧ other.word = function.word then .action
    else .device) := by
  have begins := discernible.spelled function known
  have other : ¬ "param:".toList <+: function.word.toList := by
    obtain ⟨rest, whole⟩ := begins
    rw [← whole]
    simp
  rw [← ownRole_eq other]
  exact congrArg Symbol.terminal (ofTerminal_eq_ownRole (by simp) begins)

theorem fold_query (kind : function.kind = .query) : fold s (.word function.word) = word .query := by
  have queried : (s.functions.any fun other => other.kind = .query ∧ other.word = function.word) = true :=
    List.any_eq_true.mpr ⟨function, known, by simp [kind]⟩
  rw [fold_function discernible known, if_pos queried]

/-- The word of an action may be that of a query too where no parameter is given a value. -/
theorem fold_action (kind : function.kind = .action) :
    fold s (.word function.word) = word .action ∨ (gives s = false ∧ fold s (.word function.word) = word .query) := by
  have acted : (s.functions.any fun other => other.kind = .action ∧ other.word = function.word) = true :=
    List.any_eq_true.mpr ⟨function, known, by simp [kind]⟩
  rw [fold_function discernible known]
  split
  next queried =>
    refine Or.inr ⟨Bool.eq_false_iff.mpr fun given => ?_, rfl⟩
    obtain ⟨param, takes⟩ := exists_takes given
    obtain ⟨other, member, same⟩ := List.any_eq_true.mp queried
    obtain ⟨asks, spelled⟩ := of_decide_eq_true same
    have equal := discernible.kinds param takes other member function known spelled
    rw [asks, kind] at equal
    cases equal
  next => exact Or.inl rfl

end Functions

def isCommon : Symbol Terminal String → Bool
  | .terminal (.fixed text) => (sortText commonWords wordMarks text).isSome
  | _ => true

/-- The schema of a catalog without anything. -/
def bare : Schema := ⟨.empty, [], false, 0⟩

theorem fold_of_isCommon {symbol : Symbol Terminal String} (common : isCommon symbol = true) :
    fold s symbol = fold bare symbol := by
  cases symbol with
  | nonterminal => rfl
  | terminal terminal =>
    cases terminal with
    | fixed text =>
      obtain ⟨role, found⟩ := Option.isSome_iff_exists.mp common
      simp [fold, ofTerminal, found]
    | _ => rfl

/-- One value that is no list is one symbol, and only texts are read from texts. -/
theorem exists_form (plain : ∀ element, type ≠ .array element) (known : form ∈ type.valueForms) :
    ∃ symbol, form.map (fold s) = [symbol] ∧
      ((symbol = part .string ∧ ofOutput type = .textOutput ∧ ofParam type = .textParam) ∨
        (symbol ∈ forms ∧ ofOutput type = .output ∧ ofParam type = .param)) := by
  cases type with
  | array element => exact absurd rfl (plain element)
  | enumeration members =>
    obtain ⟨member, _, rfl⟩ := List.mem_map.mp known
    exact ⟨word .member, by simp, Or.inr ⟨by decide, rfl, rfl⟩⟩
  | boolean =>
    have truth : ∀ text ∈ ["true", "false"], (text, Role.truth) ∈ commonWords := by simp [commonWords]
    rcases List.mem_pair.mp known with rfl | rfl
    · exact ⟨word .truth, by rw [List.map_singleton, fold_word_of_mem (truth _ (by simp))], Or.inr ⟨by decide, rfl, rfl⟩⟩
    · exact ⟨word .truth, by rw [List.map_singleton, fold_word_of_mem (truth _ (by simp))], Or.inr ⟨by decide, rfl, rfl⟩⟩
  | string =>
    obtain rfl := List.mem_singleton.mp known
    exact ⟨part .string, by simp [ofConstant], Or.inl ⟨rfl, rfl, rfl⟩⟩
  | _ =>
    obtain rfl := List.mem_singleton.mp known
    exact ⟨_, congrArg (fun sort => [part sort]) (ofName_constantName _), Or.inr ⟨by simp [ofConstant, forms], rfl, rfl⟩⟩

/-- One value that is no list is the same among other values as alone. -/
theorem exists_form_of_list (plain : ∀ element, type ≠ .array element) (known : form ∈ type.valueForms) :
    ∃ symbol ∈ part .string :: forms, form.map (fold s) = [symbol] := by
  obtain ⟨symbol, folded, ⟨text, _⟩ | ⟨other, _⟩⟩ := exists_form (s := s) plain known
  · exact ⟨symbol, text ▸ List.mem_cons_self .., folded⟩
  · exact ⟨symbol, List.mem_cons_of_mem _ other, folded⟩

theorem givenForms_eq (plain : ∀ element, type ≠ .array element) : Schema.givenForms type = type.valueForms := by
  cases type with
  | array element => exact absurd rfl (plain element)
  | _ => rfl

section Rules

variable {rule : Part × List (Symbol Role Part)} (giving : Bool)

theorem mem_rules_of_command (known : rule ∈ commandRules) : rule ∈ rules giving := by simp [rules, known]

theorem mem_rules_of_function (known : rule ∈ functionRules giving) : rule ∈ rules giving := by simp [rules, known]

theorem mem_rules_of_output (known : rule ∈ outputRules) : rule ∈ rules giving := by simp [rules, known]

theorem mem_rules_of_giving (known : rule ∈ givingRules) : rule ∈ rules true := by simp [rules, known]

theorem mem_rules_of_filter (known : rule ∈ filterRules) : rule ∈ rules giving := by simp [rules, known]

theorem mem_rules_of_constant (known : rule ∈ constantRules) : rule ∈ rules giving := by simp [rules, known]

end Rules

theorem lookup_entityClass {kind : String} : classRoles.lookup (Schema.entityClass kind) = none := by
  rw [Schema.entityClass]
  cases found : wellKnownEntities.lookup kind with
  | some name =>
    have all : ∀ entry ∈ wellKnownEntities, classRoles.lookup entry.2 = none := by
      simp [wellKnownEntities, classRoles, List.lookup_cons]
    exact all _ (mem_of_lookup found)
  | none =>
    refine List.lookup_eq_none_iff.mpr fun entry listed => bne_iff_ne.mpr fun same => ?_
    have all : ∀ entry ∈ classRoles, ¬ "GENERIC_ENTITY_".toList <+: entry.1.toList := by simp [classRoles]
    refine all entry listed ?_
    rw [← same]
    simp

theorem mem_constantRules {rhs : Rhs} (known : s.Constant type rhs) (flat : ∀ inner, type ≠ .array (.array inner)) :
    (ofConstant type, rhs.map (fold s)) ∈ constantRules := by
  cases known with
  | truth known =>
    have truth : ∀ text ∈ ["true", "false"], (text, Role.truth) ∈ commonWords := by simp [commonWords]
    rw [List.map_singleton, fold_word_of_mem (truth _ known)]
    decide
  | today =>
    have now : fold s (.word "now") = word .now := fold_word_of_mem (by simp [commonWords])
    rw [List.map_singleton, now]
    decide
  | edge side =>
    have edges : ∀ text ∈ ["start_of", "end_of"], (text, Role.dateEdge) ∈ commonWords := by simp [commonWords]
    rw [List.map_cons, List.map_singleton, fold_word_of_mem (edges _ side), fold_unit]
    decide
  | shifted sign =>
    have signs : ∀ text ∈ ["+", "-"], (text, Role.sign) ∈ commonWords := by simp [commonWords]
    simp only [List.map_cons, List.map_nil, fold_word_of_mem (signs _ sign), fold_nonterminal, ofName_constantName]
    decide
  | device =>
    obtain ⟨role, known, folded⟩ := fold_device (s := s) s.splitDevices _
    have listed : ∀ role ∈ functionWords, (Part.entity, [word role]) ∈ constantRules := by decide
    rw [List.map_singleton, folded]
    exact listed role known
  | @single element form known =>
    have plain : ∀ inner, element ≠ .array inner := fun inner same => flat inner (congrArg ParamType.array same)
    obtain ⟨symbol, listed, folded⟩ := exists_form_of_list (s := s) plain known
    have all : ∀ symbol ∈ part .string :: forms, (Part.list, [symbol]) ∈ constantRules := by decide
    rw [folded]
    exact all symbol listed
  | @more element form known =>
    have plain : ∀ inner, element ≠ .array inner := fun inner same => flat inner (congrArg ParamType.array same)
    obtain ⟨symbol, listed, folded⟩ := exists_form_of_list (s := s) plain known
    have all : ∀ symbol ∈ part .string :: forms, (Part.list, [part .list, word .comma, symbol]) ∈ constantRules := by decide
    rw [List.map_cons, List.map_cons, fold_nonterminal, ofName_constantName, fold_comma, folded]
    exact all symbol listed
  | entity => simp [lookup_entityClass, ofConstant, constantRules]
  | _ => simp [ofConstant, constantRules, classRoles, List.lookup_cons]

theorem mem_outputRules (type : ParamType) : (ofOutput type, [word (ofParam type)]) ∈ outputRules ∧
    (Part.anyOutput, [part (ofOutput type)]) ∈ outputRules := by
  cases type with
  | array element => cases element <;> simp [ofOutput, ofParam, outputRules]
  | _ => simp [ofOutput, ofParam, outputRules]

theorem ofOutput_array {element : ParamType} (plain : ∀ inner, element ≠ .array inner) :
    ofOutput (.array element) = .listOutput ∧ ofParam (.array element) = .listParam := by
  cases element with
  | array inner => exact absurd rfl (plain inner)
  | _ => exact ⟨rfl, rfl⟩

section Productions

variable (discernible : s.Discernible) {lhs : String} {rhs : Rhs}

include discernible

theorem element_ne_array (takes : s.Takes param) {element : ParamType} (same : param.type = .array element) (inner : ParamType) :
    element ≠ .array inner := by
  rintro rfl
  refine discernible.flat inner (.given takes ?_)
  rw [same]
  exact List.mem_cons_self ..

private theorem mem_givingRules (takes : s.Takes param) (known : form ∈ Schema.givenForms param.type) :
    (Part.constParam, (.word param.word :: .word "=" :: form).map (fold s)) ∈ givingRules := by
  rw [List.map_cons, List.map_cons, fold_param discernible takes.1, fold_equals]
  by_cases array : ∃ element, param.type = .array element
  · obtain ⟨element, same⟩ := array
    rw [same] at known ⊢
    obtain rfl := List.mem_singleton.mp known
    rw [(ofOutput_array (element_ne_array discernible takes same)).2]
    simp only [List.map_cons, List.map_nil, fold_left, fold_right, fold_nonterminal, ofName_constantName]
    exact (by decide : (Part.constParam, [word .listParam, word .equals, word .left, part .list, word .right]) ∈ givingRules)
  · have plain : ∀ element, param.type ≠ .array element := fun element same => array ⟨element, same⟩
    rw [givenForms_eq plain] at known
    obtain ⟨symbol, folded, ⟨rfl, _, role⟩ | ⟨listed, _, role⟩⟩ := exists_form (s := s) plain known
    · rw [folded, role]
      decide
    · have all : ∀ symbol ∈ forms, (Part.constParam, [word .param, word .equals, symbol]) ∈ givingRules := by decide
      rw [folded, role]
      exact all symbol listed

private theorem passed_mem_givingRules (takes : s.Takes param) (other : param.type ≠ .string) :
    (Part.passing, [word (ofParam param.type), word .equals, part (ofOutput param.type)]) ∈ givingRules := by
  by_cases array : ∃ element, param.type = .array element
  · obtain ⟨element, same⟩ := array
    obtain ⟨output, role⟩ := ofOutput_array (element_ne_array discernible takes same)
    rw [same, output, role]
    decide
  · cases same : param.type with
    | array element => exact absurd ⟨element, same⟩ array
    | string => exact absurd same other
    | _ => simp [ofOutput, ofParam, givingRules]

omit discernible in
private theorem contains_mem_filterRules {element : ParamType} (known : form ∈ element.valueForms) :
    (Part.atomFilter, part (ofOutput (.array element)) :: word .contains :: form.map (fold s)) ∈ filterRules := by
  by_cases array : ∃ inner, element = .array inner
  · obtain ⟨inner, rfl⟩ := array
    obtain rfl := List.mem_singleton.mp known
    simp [ofOutput, ofConstant, filterRules]
  · have plain : ∀ inner, element ≠ .array inner := fun inner same => array ⟨inner, same⟩
    obtain ⟨symbol, listed, folded⟩ := exists_form_of_list (s := s) plain known
    have all : ∀ symbol ∈ part .string :: forms,
        (Part.atomFilter, [part .listOutput, word .contains, symbol]) ∈ filterRules := by decide
    rw [folded, (ofOutput_array plain).1]
    exact all symbol listed

omit discernible in
private theorem compared_mem_filterRules (plain : ∀ element, type ≠ .array element) {operator : String}
    (compares : operator ∈ type.operators) (known : form ∈ type.valueForms) :
    (Part.atomFilter, (.nonterminal type.outputName :: .word operator :: form).map (fold s)) ∈ filterRules := by
  have operators : ∀ operator ∈ ["==", "=~", ">=", "<="], (operator, Role.operator) ∈ commonWords := by simp [commonWords]
  have compares : operator ∈ ["==", "=~", ">=", "<="] := by
    cases type with
    | array element => exact absurd rfl (plain element)
    | _ =>
      simp only [ParamType.operators, ParamType.category, List.mem_cons, List.not_mem_nil, or_false] at compares ⊢
      tauto
  rw [List.map_cons, List.map_cons, fold_nonterminal, ofName_outputName, fold_word_of_mem (operators _ compares)]
  obtain ⟨symbol, folded, ⟨rfl, output, _⟩ | ⟨listed, output, _⟩⟩ := exists_form (s := s) plain known
  · rw [folded, output]
    decide
  · have all : ∀ symbol ∈ forms, (Part.atomFilter, [part .output, word .operator, symbol]) ∈ filterRules := by decide
    rw [folded, output]
    exact all symbol listed

omit discernible in
private theorem fixed_mem_rules (giving : Bool) (known : (lhs, rhs) ∈ Schema.fixedRules) :
    (ofName lhs, rhs.map (fold s)) ∈ rules giving := by
  have all : ∀ rule ∈ Schema.fixedRules, (∀ symbol ∈ rule.2, isCommon symbol = true) ∧
      ((ofName rule.1, rule.2.map (fold bare)) ∈ commandRules ∨ (ofName rule.1, rule.2.map (fold bare)) ∈ filterRules) := by
    decide +kernel
  obtain ⟨common, listed⟩ := all _ known
  rw [List.map_congr_left fun symbol used => fold_of_isCommon (common symbol used)]
  exact listed.elim (mem_rules_of_command giving) (mem_rules_of_filter giving)

private theorem function_mem_functionRules {function : TypedFunction} (known : function ∈ s.functions) :
    (ofName (Schema.functionNames function.kind).1, [fold s (.word function.word)]) ∈ functionRules (gives s) ∧
      (ofGroup function.kind, [fold s (.word function.word)]) ∈ functionRules (gives s) := by
  cases kind : function.kind with
  | query =>
    have folded := fold_query discernible known kind
    simp [Schema.functionNames, folded, ofGroup, functionRules]
  | action =>
    rcases fold_action discernible known kind with folded | ⟨nothing, folded⟩
    · simp [Schema.functionNames, folded, ofGroup, functionRules]
    · simp [Schema.functionNames, folded, ofGroup, functionRules, nothing]

omit discernible in
private theorem divided_mem_functionRules (function : TypedFunction) (giving : Bool) :
    (ofName (Schema.functionNames function.kind).1, [fold s (.word (deviceWord true function.device)), part (ofGroup function.kind)]) ∈
      functionRules giving := by
  obtain ⟨role, listed, folded⟩ := fold_device (s := s) true function.device
  have all : ∀ giving, ∀ role ∈ functionWords, (Part.queryFunction, [word role, part .queries]) ∈ functionRules giving ∧
      (Part.actionFunction, [word role, part .actions]) ∈ functionRules giving := by decide
  rw [folded]
  cases function.kind with
  | query => exact ofName_queryFunction ▸ (all _ role listed).1
  | action => exact ofName_actionFunction ▸ (all _ role listed).2

omit discernible in
private theorem ranged_mem_filterRules (ordered : type.isOrdered = true) :
    (Part.atomFilter, [part (ofOutput type), word .inRange, word .left, part (ofConstant type), word .comma, part (ofConstant type),
      word .right]) ∈ filterRules := by
  cases type with
  | number | date | time | currency | measure => simp [ofOutput, ofConstant, filterRules]
  | _ => cases ordered

omit discernible in
private theorem sought_mem_filterRules (member : type.hasMembership = true) :
    (Part.atomFilter, [part (ofOutput type), word .inArray, word .left, part (ofConstant (.array type)), word .right]) ∈
      filterRules := by
  cases type with
  | string | entity => simp [ofOutput, ofConstant, filterRules]
  | _ => cases member

omit discernible in
private theorem answer_mem_constantRules (known : type ∈ s.answerTypes) :
    (Part.anyConstant, [part (ofConstant type)]) ∈ constantRules := by
  cases type with
  | enumeration | array => simp [Schema.answerTypes] at known
  | _ => simp [ofConstant, constantRules]

/-- What is passed to a parameter stands behind its word and an equals sign. -/
private theorem fold_passed (takes : s.Takes param) (symbol : Symbol Terminal String) :
    [.word param.word, .word "=", symbol].map (fold s) = [word (ofParam param.type), word .equals, fold s symbol] := by
  rw [List.map_cons, List.map_cons, List.map_singleton, fold_param discernible takes.1, fold_equals]

theorem mem_rules (known : s.Production lhs rhs) : (ofName lhs, rhs.map (fold s)) ∈ rules (gives s) := by
  cases known with
  | fixed known => exact fixed_mem_rules _ known
  | joined known => exact mem_rules_of_function _ (function_mem_functionRules discernible known).1
  | grouped known =>
    rw [ofName_group]
    exact mem_rules_of_function _ (function_mem_functionRules discernible known).2
  | @divided function =>
    rw [List.map_cons, List.map_singleton, fold_nonterminal, ofName_group]
    exact mem_rules_of_function _ (divided_mem_functionRules function _)
  | output known =>
    rw [ofName_outputName, List.map_singleton, fold_param discernible known]
    exact mem_rules_of_output _ (mem_outputRules _).1
  | anyOutput =>
    rw [ofName_anyOutput, List.map_singleton, fold_nonterminal, ofName_outputName]
    exact mem_rules_of_output _ (mem_outputRules _).2
  | asked takes | called takes | passing takes =>
    rw [gives_of_takes takes]
    exact mem_rules_of_giving (by simp [givingRules])
  | given takes known =>
    rw [gives_of_takes takes, ofName_constParam]
    exact mem_rules_of_giving (mem_givingRules discernible takes known)
  | passedEvent takes text =>
    have event : fold s (.word "event") = word .event := fold_word_of_mem (by simp [commonWords])
    rw [gives_of_takes takes, ofName_passing, fold_passed discernible takes, event, text]
    exact mem_rules_of_giving (by decide)
  | passedAny takes text =>
    rw [gives_of_takes takes, ofName_passing, fold_passed discernible takes, fold_nonterminal, ofName_anyOutput, text]
    exact mem_rules_of_giving (by decide)
  | passed takes other =>
    rw [gives_of_takes takes, ofName_passing, fold_passed discernible takes, fold_nonterminal, ofName_outputName]
    exact mem_rules_of_giving (passed_mem_givingRules discernible takes other)
  | contains _ known =>
    have contains : fold s (.word "contains") = word .contains := fold_word_of_mem (by simp [commonWords])
    rw [ofName_atomFilter, List.map_cons, List.map_cons, fold_nonterminal, ofName_outputName, contains]
    exact mem_rules_of_filter _ (contains_mem_filterRules known)
  | compared _ plain compares known =>
    rw [ofName_atomFilter]
    exact mem_rules_of_filter _ (compared_mem_filterRules plain compares known)
  | ranged _ ordered =>
    have range : fold s (.word "in_range") = word .inRange := fold_word_of_mem (by simp [commonWords])
    simp only [ofName_atomFilter, List.map_cons, List.map_nil, fold_nonterminal, ofName_outputName, ofName_constantName, range,
      fold_left, fold_comma, fold_right]
    exact mem_rules_of_filter _ (ranged_mem_filterRules ordered)
  | sought _ member =>
    have among : fold s (.word "in_array") = word .inArray := fold_word_of_mem (by simp [commonWords])
    simp only [ofName_atomFilter, List.map_cons, List.map_nil, fold_nonterminal, ofName_outputName, ofName_constantName, among,
      fold_left, fold_right]
    exact mem_rules_of_filter _ (sought_mem_filterRules member)
  | answer known =>
    rw [ofName_anyConstant, List.map_singleton, fold_nonterminal, ofName_constantName]
    exact mem_rules_of_constant _ (answer_mem_constantRules known)
  | answerMember =>
    rw [ofName_anyConstant, List.map_singleton, fold_member]
    exact mem_rules_of_constant _ (by decide)
  | constant known listed =>
    rw [ofName_constantName]
    refine mem_rules_of_constant _ (mem_constantRules known ?_)
    rintro inner rfl
    exact discernible.flat inner (listed _ rfl)

end Productions

end Pattern

end CommandLang
