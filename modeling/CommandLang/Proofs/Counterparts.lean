import CommandLang.Proofs.Clauses
import CommandLang.Proofs.Devices
import CommandLang.Proofs.Legibility

/-! The clauses of a catalog with joined and with divided devices. They differ in the words of devices and in the rules of
functions alone. No other word looks like that of a device or a function, and words of devices and functions never stand
side by side: where two symbols meet in a rule, one of them is another word, or the second one starts with such a word. -/

namespace CommandLang

open Text (unbroken)

def plain (text : String) : Bool :=
  unbroken text && !text.toList.isEmpty && !signed text && !("device:".toList.isPrefixOf text.toList) && text ≠ "\""

def grouping (name : String) : Bool :=
  "$queries_".toList.isPrefixOf name.toList || "$actions_".toList.isPrefixOf name.toList

/-- Whether a nonterminal looks like one whose rules all start with a plain word. -/
def led (name : String) : Bool :=
  "$const_".toList.isPrefixOf name.toList || "$param_".toList.isPrefixOf name.toList

namespace Symbol

def neutral : Symbol Terminal String → Bool
  | .terminal (.fixed text) => plain text
  | .terminal _ => true
  | .nonterminal name => !grouping name

def quiet : Symbol Terminal String → Bool
  | .terminal (.fixed text) => plain text
  | .terminal _ => true
  | .nonterminal _ => false

def isLed : Symbol Terminal String → Bool
  | .terminal _ => false
  | .nonterminal name => led name

end Symbol

/-- Whether devices and functions stay apart where two symbols meet. -/
def spaced : Rhs → Bool
  | left :: right :: rest => (left.quiet || right.quiet || right.isLed) && spaced (right :: rest)
  | _ => true

def neutralBody (rhs : Rhs) : Bool := !rhs.isEmpty && rhs.all Symbol.neutral && spaced rhs

def Clause.neutral : Clause → Bool
  | .rule lhs rhs => !grouping lhs && neutralBody rhs && (!led lhs || rhs.head?.any Symbol.quiet)
  | .values name => unbroken name
  | .quotation => true

def deviceConstant : String := (ParamType.entity deviceEntity).constantName

/-- A clause of joined devices and its counterpart for divided ones. -/
inductive Clause.Meets : Clause → Clause → Prop where
  | shared {clause : Clause} (neutral : clause.neutral = true) : Meets clause clause
  | device {device : String} (known : unbroken device = true) :
      Meets (.rule deviceConstant [.word (deviceWord false device)]) (.rule deviceConstant [.word (deviceWord true device)])

section

variable {text name lhs : String} {rhs : Rhs}

@[simp] theorem Symbol.neutral_word : (Symbol.word text).neutral = plain text := rfl

@[simp] theorem Symbol.quiet_word : (Symbol.word text).quiet = plain text := rfl

@[simp] theorem Symbol.neutral_nonterminal : (Symbol.nonterminal name : Symbol Terminal String).neutral = !grouping name := rfl

@[simp] theorem Symbol.neutral_valueOf : (Symbol.valueOf name).neutral = true := rfl

@[simp] theorem neutralBody_single (symbol : Symbol Terminal String) : neutralBody [symbol] = symbol.neutral := by
  simp [neutralBody, spaced]

@[simp] theorem neutralBody_word_cons : neutralBody (.word text :: rhs) = (plain text && (rhs.isEmpty || neutralBody rhs)) := by
  cases known : plain text <;> cases rhs <;> simp [neutralBody, spaced, known]

@[simp] theorem neutralBody_nonterminal_word :
    neutralBody (.nonterminal name :: .word text :: rhs) = (!grouping name && neutralBody (.word text :: rhs)) := by
  cases known : plain text <;> simp [neutralBody, spaced, known, Bool.and_assoc]

@[simp] theorem Clause.neutral_rule : (Clause.rule lhs rhs).neutral =
    (!grouping lhs && neutralBody rhs && (!led lhs || rhs.head?.any Symbol.quiet)) := rfl

@[simp] theorem Clause.neutral_values : (Clause.values name).neutral = unbroken name := rfl

theorem plain_append {front rest : String}
    (start : front.toList.head?.any (fun c => c ≠ '@' ∧ c ≠ 'd' ∧ c ≠ '"') = true) :
    plain (front ++ rest) = (unbroken front && unbroken rest) := by
  cases letters : front.toList with
  | nil => simp [letters] at start
  | cons first others =>
    simp only [letters, List.head?_cons, Option.any_some, decide_eq_true_eq] at start
    obtain ⟨sign, letter, mark⟩ := start
    have apart : front ++ rest ≠ "\"" := by
      intro same
      have texts := congrArg String.toList same
      rw [String.toList_append, letters] at texts
      exact mark (List.cons.inj texts).1
    simp [plain, signed, letters, sign, apart, List.isPrefixOf, Ne.symm letter]

@[simp] theorem plain_enum (member : String) : plain ("enum:" ++ member) = unbroken member := by
  rw [plain_append (by decide), show unbroken "enum:" = true by decide, Bool.true_and]

@[simp] theorem plain_unit (unit : String) : plain ("unit:" ++ unit) = unbroken unit := by
  rw [plain_append (by decide), show unbroken "unit:" = true by decide, Bool.true_and]

@[simp] theorem plain_kind (kind : String) : plain ("^^" ++ kind) = unbroken kind := by
  rw [plain_append (by decide), show unbroken "^^" = true by decide, Bool.true_and]

@[simp] theorem grouping_constantName (type : ParamType) : grouping type.constantName = false := by
  simp [grouping, ParamType.constantName, List.isPrefixOf]

@[simp] theorem grouping_outputName (type : ParamType) : grouping type.outputName = false := by
  simp [grouping, ParamType.outputName, List.isPrefixOf]

@[simp] theorem led_constantName (type : ParamType) : led type.constantName = false := by
  simp [led, ParamType.constantName, List.isPrefixOf]

end

theorem neutral_valueForms {type : ParamType} (known : unbroken type.text = true) :
    ∀ form ∈ type.valueForms, neutralBody form = true := by
  cases type with
  | boolean => exact List.all_eq_true.mp (by decide +kernel)
  | enumeration members => simpa [ParamType.valueForms] using known
  | _ => simp [ParamType.valueForms]

namespace Schema

variable (s : Schema)

def joined : Schema := { s with splitDevices := false }

def divided : Schema := { s with splitDevices := true }

@[simp] theorem neutral_constantRules {type : ParamType} {productions : List Rhs} :
    (constantRules type productions).all Clause.neutral = productions.all neutralBody := by
  simp [constantRules, List.all_map, Function.comp_def]

@[simp] theorem neutral_numberClauses : numberClauses.all Clause.neutral = true := by decide +kernel

@[simp] theorem neutral_stringClauses : stringClauses.all Clause.neutral = true := by decide +kernel

theorem neutral_locationClauses : locationClauses.all Clause.neutral = true := by decide +kernel

theorem unbroken_entityClass {kind : String} (known : unbroken kind = true) : unbroken (entityClass kind) = true := by
  have generic : unbroken "GENERIC_ENTITY_" = true := by decide
  have listed : ∀ entry ∈ wellKnownEntities, unbroken entry.2 = true := by decide
  rw [entityClass]
  cases found : wellKnownEntities.lookup kind with
  | none => simp [generic, known]
  | some name => exact listed _ (mem_of_lookup found)

theorem meets_of_neutral {clauses : List Clause} (neutral : clauses.all Clause.neutral = true) :
    List.Forall₂ Clause.Meets clauses clauses :=
  List.forall₂_same.mpr fun clause member => .shared (List.all_eq_true.mp neutral clause member)

theorem meets_if {condition : Bool} {left right : List Clause} (meets : List.Forall₂ Clause.Meets left right) :
    List.Forall₂ Clause.Meets (if condition then left else []) (if condition then right else []) := by
  cases condition with
  | false => exact .nil
  | true => exact meets

theorem meets_flatMap {α : Type} {items : List α} {left right : α → List Clause}
    (meets : ∀ item ∈ items, List.Forall₂ Clause.Meets (left item) (right item)) :
    List.Forall₂ Clause.Meets (items.flatMap left) (items.flatMap right) := by
  induction items with
  | nil => exact .nil
  | cons item rest ih =>
    obtain ⟨here, others⟩ := List.forall_mem_cons.mp meets
    exact List.rel_append here (ih others)

variable {s} (legible : s.Legible)

include legible

theorem Legible.joined : s.joined.Legible := ⟨legible.catalog, legible.functions, legible.params⟩

theorem Legible.divided : s.divided.Legible := ⟨legible.catalog, legible.functions, legible.params⟩

theorem Legible.unbroken_units (family : String) : ∀ unit ∈ (s.catalog.units.get? family).getD [], unbroken unit = true := by
  cases found : s.catalog.units.get? family with
  | none => simp
  | some units => exact (legible.catalog.units family units found).2

theorem neutral_measureClauses (family : String) : (s.measureClauses family).all Clause.neutral = true := by
  have units := legible.unbroken_units family
  have duration : unbroken "DURATION" = true := by decide
  simp only [measureClauses]
  split
  all_goals simp +contextual [duration, units]

theorem neutral_dateClauses : s.dateClauses.all Clause.neutral = true := by
  have fixed : unbroken "DATE" = true ∧ plain "now" = true ∧ plain "start_of" = true ∧ plain "end_of" = true ∧
    plain "+" = true ∧ plain "-" = true := by decide
  have edges : ∀ unit ∈ dateEdgeUnits, unbroken unit = true := by decide
  simp only [dateClauses]
  split
  all_goals simp +contextual [fixed, edges, neutral_measureClauses legible]

theorem meets_entityClauses {kind : String} (known : unbroken kind = true) :
    List.Forall₂ Clause.Meets (s.joined.entityClauses kind) (s.divided.entityClauses kind) := by
  unfold entityClauses
  split
  next same =>
    subst same
    simp only [constantRules, List.map_map]
    refine List.forall₂_map_left_iff.mpr (List.forall₂_map_right_iff.mpr (List.forall₂_same.mpr fun device member => ?_))
    exact .device (legible.catalog.devices device member)
  next =>
    apply meets_of_neutral
    simp only [List.all_cons]
    split
    all_goals simp [unbroken_entityClass known, known]

/-- The constants of a type are the same in both, up to the words of devices. -/
theorem meets_constantClauses {type : ParamType} (known : unbroken type.text = true) :
    List.Forall₂ Clause.Meets (s.joined.constantClauses type) (s.divided.constantClauses type) := by
  have fixed : unbroken "TIME" = true ∧ unbroken "CURRENCY" = true ∧ plain "," = true := by decide
  have forms := neutral_valueForms known
  induction type with
  | string => exact meets_of_neutral neutral_stringClauses
  | number => exact meets_of_neutral neutral_numberClauses
  | boolean => exact meets_of_neutral (by simp [constantClauses, List.all_eq_true.mpr forms])
  | date => exact meets_of_neutral (neutral_dateClauses legible.joined)
  | time => exact meets_of_neutral (by simp [constantClauses, fixed])
  | currency => exact meets_of_neutral (by simp [constantClauses, fixed])
  | location => exact meets_of_neutral neutral_locationClauses
  | entity kind => exact meets_entityClauses legible (by simpa using known)
  | measure family => exact meets_of_neutral (neutral_measureClauses legible.joined family)
  | enumeration members => exact meets_of_neutral (by simp [constantClauses, List.all_eq_true.mpr forms])
  | array element ih =>
    have known : unbroken element.text = true := by simpa using known
    have forms := neutral_valueForms known
    unfold constantClauses
    refine List.rel_append ?_ (meets_of_neutral ?_)
    · split
      · exact .nil
      · exact .nil
      · exact ih known forms
    · simp +contextual [List.all_flatMap, fixed, forms]

theorem meets_valueClauses {type : ParamType} (known : unbroken type.text = true) :
    List.Forall₂ Clause.Meets (s.joined.valueClauses type) (s.divided.valueClauses type) := by
  cases type with
  | enumeration => exact .nil
  | boolean => exact .nil
  | _ => exact meets_constantClauses legible known

theorem meets_commandClauses : List.Forall₂ Clause.Meets s.joined.commandClauses s.divided.commandClauses := by
  have times := meets_constantClauses legible (show unbroken ParamType.time.text = true by decide)
  have dates := meets_constantClauses legible (show unbroken ParamType.date.text = true by decide)
  have durations := meets_constantClauses legible (show unbroken (ParamType.measure durationFamily).text = true by decide)
  simp only [commandClauses, List.flatten_cons, List.flatten_nil, List.append_nil]
  refine List.rel_append (meets_of_neutral (by decide +kernel)) (List.rel_append (meets_of_neutral (by decide +kernel))
    (List.rel_append (meets_of_neutral (by decide +kernel)) (List.rel_append (meets_if (meets_of_neutral (by decide +kernel)))
    (List.rel_append (meets_if (meets_of_neutral (by decide +kernel))) (List.rel_append times
    (List.rel_append (meets_of_neutral (by decide +kernel)) (meets_if (List.rel_append (List.rel_append dates durations)
    (meets_of_neutral (by decide +kernel))))))))))

theorem Legible.of_mem_params {param : Param} (member : param ∈ s.params) :
    plain param.word = true ∧ unbroken param.type.text = true := by
  rw [Schema.params, List.mem_eraseDups] at member
  obtain ⟨function, known, used⟩ := List.mem_flatMap.mp member
  obtain ⟨named, typed⟩ := legible.params function known param used
  have literal : unbroken "param:" = true ∧ unbroken ":" = true := by decide
  refine ⟨?_, typed⟩
  rw [Param.word, String.append_assoc, String.append_assoc, plain_append (by decide)]
  simp [literal, named, typed]

theorem neutral_outputClauses : s.outputClauses.all Clause.neutral = true := by
  have any : grouping "$out_param_Any" = false ∧ led "$out_param_Any" = false := by decide
  rw [outputClauses, List.all_flatMap, List.all_eq_true]
  intro param member
  simp [any, (legible.of_mem_params member).1]

omit legible in
theorem neutral_givenForms {type : ParamType} (known : unbroken type.text = true) :
    ∀ form ∈ givenForms type, neutralBody form = true := by
  have brackets : plain "[" = true ∧ plain "]" = true := by decide
  unfold givenForms
  split
  · simp [brackets]
  · exact neutral_valueForms known

theorem meets_inputClauses : List.Forall₂ Clause.Meets s.joined.inputClauses s.divided.inputClauses := by
  have receivers : grouping "$const_param" = false ∧ grouping "$param_passing" = false ∧ grouping "$out_param_Any" = false := by decide
  have fixed : plain "=" = true ∧ plain "event" = true := by decide
  refine meets_flatMap fun param member => ?_
  obtain ⟨word, typed⟩ := legible.of_mem_params (List.mem_filter.mp member).1
  have forms := neutral_givenForms typed
  simp only [List.flatten_cons, List.flatten_nil, List.append_nil]
  refine List.rel_append (meets_valueClauses legible typed) (List.rel_append (meets_of_neutral ?_) (meets_of_neutral ?_))
  · simp +contextual [receivers, fixed, word, forms]
  · split
    all_goals simp [receivers, fixed, word]

omit legible in
theorem meets_givingClauses : List.Forall₂ Clause.Meets s.joined.givingClauses s.divided.givingClauses :=
  meets_if (List.rel_append (meets_if (meets_of_neutral (by decide +kernel))) (meets_if (meets_of_neutral (by decide +kernel))))

omit legible in
theorem plain_of_operator (type : ParamType) : ∀ operator ∈ type.operators, plain operator = true := by
  rw [ParamType.operators]
  split
  all_goals decide

theorem meets_conditionClauses {type : ParamType} (known : unbroken type.text = true) :
    List.Forall₂ Clause.Meets (s.joined.conditionClauses type) (s.divided.conditionClauses type) := by
  have filter : grouping "$atom_filter" = false ∧ led "$atom_filter" = false := by decide
  have fixed : plain "contains" = true ∧ plain "in_range" = true ∧ plain "in_array" = true ∧ plain "[" = true ∧
    plain "," = true ∧ plain "]" = true := by decide
  simp only [conditionClauses]
  split
  next element =>
    have known : unbroken element.text = true := by simpa using known
    have forms := neutral_valueForms known
    refine List.rel_append (meets_valueClauses legible known) (meets_of_neutral ?_)
    simp +contextual [filter, fixed, forms]
  next =>
    have forms := neutral_valueForms known
    have operators := plain_of_operator type
    refine List.rel_append (List.rel_append (List.rel_append (meets_valueClauses legible known) (meets_of_neutral ?_))
      (meets_if (meets_of_neutral ?_))) (meets_if (List.rel_append (meets_constantClauses legible (by simpa using known))
      (meets_of_neutral ?_)))
    · simp +contextual [filter, forms, operators]
    · simp [filter, fixed]
    · simp [filter, fixed]

theorem meets_filterClauses : List.Forall₂ Clause.Meets s.joined.filterClauses s.divided.filterClauses := by
  have types : ∀ type ∈ s.outputTypes, unbroken type.text = true := by
    intro type member
    rw [outputTypes, List.mem_eraseDups] at member
    obtain ⟨param, used, rfl⟩ := List.mem_map.mp member
    exact (legible.of_mem_params used).2
  have conditions : List.Forall₂ Clause.Meets (s.outputTypes.flatMap s.joined.conditionClauses)
      (s.outputTypes.flatMap s.divided.conditionClauses) :=
    meets_flatMap fun type member => meets_conditionClauses legible (types type member)
  change List.Forall₂ Clause.Meets (if s.outputTypes.isEmpty then _ else _) (if s.outputTypes.isEmpty then _ else _)
  split
  · exact .nil
  · simp only [List.flatten_cons, List.flatten_nil, List.append_nil]
    exact List.rel_append conditions (List.rel_append (meets_of_neutral (by decide +kernel))
      (meets_if (meets_of_neutral (by decide +kernel))))

theorem Legible.of_mem_elementTypes {type : ParamType} (member : type ∈ s.elementTypes) : unbroken type.text = true := by
  obtain ⟨function, known, used⟩ := List.mem_flatMap.mp member
  obtain ⟨param, given, rfl⟩ := List.mem_map.mp used
  have typed := (legible.params function known param given).2
  generalize param.type = type at typed
  induction type with
  | array element ih => exact ih (by simpa using typed)
  | _ => exact typed

theorem Legible.of_mem_entityKinds {kind : String} (member : kind ∈ s.entityKinds) : unbroken kind = true := by
  unfold entityKinds at member
  extract_lets used kinds at member
  have collected : kind ∈ kinds ∨ kind = deviceEntity := by
    split at member
    · exact Or.inl (List.mem_filter.mp member).1
    · split at member
      · exact Or.inl member
      · simpa using member
  rcases collected with listed | own
  · rcases List.mem_append.mp (List.mem_eraseDups.mp listed) with declared | referred
    · obtain ⟨entity, known, rfl⟩ := List.mem_map.mp declared
      exact legible.catalog.entities entity known
    · obtain ⟨type, known, found⟩ := List.mem_filterMap.mp referred
      cases type with
      | entity => simpa [Option.some.inj found] using legible.of_mem_elementTypes known
      | _ => cases found
  · rw [own]
    decide

theorem Legible.of_mem_enumMembers {name : String} (member : name ∈ s.enumMembers) : unbroken name = true := by
  unfold enumMembers at member
  rw [List.mem_eraseDups] at member
  rcases List.mem_append.mp member with declared | used
  · obtain ⟨members, known, inside⟩ := List.mem_flatten.mp declared
    exact legible.catalog.enums members known name inside
  · obtain ⟨type, known, inside⟩ := List.mem_flatMap.mp used
    cases type with
    | enumeration members =>
      have typed := legible.of_mem_elementTypes known
      rw [ParamType.unbroken_enumeration, List.all_eq_true] at typed
      exact typed name inside
    | _ => cases inside

theorem meets_answerClauses : List.Forall₂ Clause.Meets s.joined.answerClauses s.divided.answerClauses := by
  have any : grouping "$constant_Any" = false ∧ led "$constant_Any" = false := by decide
  have types : ∀ type ∈ s.answerTypes, unbroken type.text = true := by
    have basic : ∀ type ∈ [ParamType.string, .number, .boolean, .date, .time, .currency, .location], unbroken type.text = true := by
      decide
    intro type member
    simp only [answerTypes, List.flatten_cons, List.flatten_nil, List.append_nil] at member
    rcases List.mem_append.mp member with known | member
    · exact basic type known
    · rcases List.mem_append.mp member with entities | measures
      · obtain ⟨kind, known, rfl⟩ := List.mem_map.mp entities
        simpa using legible.of_mem_entityKinds known
      · obtain ⟨family, known, rfl⟩ := List.mem_map.mp measures
        obtain ⟨units, found⟩ := OrderedMap.get?_of_contains (OrderedMap.contains_iff.mpr known)
        simpa using (legible.catalog.units family units found).1
  have members : ∀ member ∈ s.enumMembers, unbroken member = true := fun _ known => legible.of_mem_enumMembers known
  have answers : List.Forall₂ Clause.Meets
      (s.answerTypes.flatMap fun type => s.joined.constantClauses type ++ [.rule "$constant_Any" [.nonterminal type.constantName]])
      (s.answerTypes.flatMap fun type => s.divided.constantClauses type ++ [.rule "$constant_Any" [.nonterminal type.constantName]]) :=
    meets_flatMap fun type member => List.rel_append (meets_constantClauses legible (types type member))
      (meets_of_neutral (by simp [any]))
  have enums : (s.enumMembers.map fun member => Clause.rule "$constant_Any" [.word ("enum:" ++ member)]).all Clause.neutral = true := by
    simp +contextual [any, members]
  exact List.rel_append answers (meets_of_neutral enums)

end Schema

end CommandLang
