import CommandLang.Proofs.Clauses

/-! What the clauses of a schema rely on. A nonterminal is settled if one of its rules uses settled nonterminals only, so
that it derives some word. If the catalog has values for every type in use, each clause uses settled nonterminals and
classes that are in use. -/

namespace CommandLang

/-- A nonterminal that derives some word by the rules among some clauses. -/
inductive Settled (clauses : List Clause) : String → Prop where
  | intro {lhs : String} {rhs : Rhs} (known : .rule lhs rhs ∈ clauses)
      (inner : ∀ name, .nonterminal name ∈ rhs → Settled clauses name) : Settled clauses lhs

def Symbol.Supplied (clauses : List Clause) : Symbol Terminal String → Prop
  | .nonterminal name => Settled clauses name
  | .terminal (.fixed _) => True
  | .terminal (.extensible name) => .values name ∈ clauses
  | .terminal (.copy name) => name = quotedString ∧ .quotation ∈ clauses

def Rhs.Supplied (clauses : List Clause) (rhs : Rhs) : Prop := ∀ symbol ∈ rhs, symbol.Supplied clauses

/-- A clause that relies on nothing but the clauses themselves. -/
def Clause.Supplied (clauses : List Clause) : Clause → Prop
  | .rule _ rhs => Rhs.Supplied clauses rhs
  | .values name => name ≠ quotedString
  | .quotation => True

/-- The clauses of a part rely on nothing but all clauses. -/
def Supplies (clauses part : List Clause) : Prop := ∀ clause ∈ part, clause.Supplied clauses

variable {clauses part : List Clause} {lhs name : String} {rhs : Rhs}

@[simp] theorem Symbol.supplied_word {text : String} : (Symbol.word text).Supplied clauses := trivial

@[simp] theorem Symbol.supplied_valueOf : (Symbol.valueOf name).Supplied clauses ↔ .values name ∈ clauses := Iff.rfl

@[simp] theorem Symbol.supplied_spanOf :
    (Symbol.spanOf name).Supplied clauses ↔ name = quotedString ∧ .quotation ∈ clauses := Iff.rfl

@[simp] theorem Symbol.supplied_nonterminal :
    (Symbol.nonterminal name : Symbol Terminal String).Supplied clauses ↔ Settled clauses name := Iff.rfl

@[simp] theorem Rhs.supplied_nil : Rhs.Supplied clauses [] := fun _ member => (List.not_mem_nil member).elim

@[simp] theorem Rhs.supplied_cons {symbol : Symbol Terminal String} :
    Rhs.Supplied clauses (symbol :: rhs) ↔ symbol.Supplied clauses ∧ Rhs.Supplied clauses rhs := List.forall_mem_cons

@[simp] theorem Rhs.supplied_append {more : Rhs} :
    Rhs.Supplied clauses (rhs ++ more) ↔ Rhs.Supplied clauses rhs ∧ Rhs.Supplied clauses more := List.forall_mem_append

@[simp] theorem Clause.supplied_rule : (Clause.rule lhs rhs).Supplied clauses ↔ Rhs.Supplied clauses rhs := Iff.rfl

@[simp] theorem Clause.supplied_values : (Clause.values name).Supplied clauses ↔ name ≠ quotedString := Iff.rfl

@[simp] theorem Clause.supplied_quotation : Clause.quotation.Supplied clauses := trivial

namespace Supplies

@[simp] theorem nil : Supplies clauses [] := fun _ member => (List.not_mem_nil member).elim

@[simp] theorem cons {clause : Clause} : Supplies clauses (clause :: part) ↔ clause.Supplied clauses ∧ Supplies clauses part :=
  List.forall_mem_cons

@[simp] theorem append {more : List Clause} :
    Supplies clauses (part ++ more) ↔ Supplies clauses part ∧ Supplies clauses more := List.forall_mem_append

@[simp] theorem map {α : Type} {items : List α} {f : α → Clause} :
    Supplies clauses (items.map f) ↔ ∀ item ∈ items, (f item).Supplied clauses := List.forall_mem_map

@[simp] theorem flatMap {α : Type} {items : List α} {f : α → List Clause} :
    Supplies clauses (items.flatMap f) ↔ ∀ item ∈ items, Supplies clauses (f item) := by
  simp only [Supplies, List.mem_flatMap]
  exact ⟨fun all item member clause inside => all clause ⟨item, member, inside⟩,
    fun all clause ⟨item, member, inside⟩ => all item member clause inside⟩

end Supplies

theorem Settled.of_rule (known : .rule lhs rhs ∈ clauses) (supplied : Rhs.Supplied clauses rhs) : Settled clauses lhs :=
  .intro known fun _ used => supplied _ used

namespace Schema

variable {s : Schema} {type : ParamType} {productions : List Rhs}

theorem supplies_constantRules :
    Supplies clauses (constantRules type productions) ↔ ∀ rhs ∈ productions, Rhs.Supplied clauses rhs := by
  rw [constantRules, Supplies.map]
  rfl

/-- A type has constants if it has one that is supplied. -/
theorem settled_constantName (within : constantRules type productions ⊆ clauses) (one : rhs ∈ productions)
    (supplied : Rhs.Supplied clauses rhs) : Settled clauses type.constantName :=
  .of_rule (within (List.mem_map_of_mem one)) supplied

/-- The values of a class are constants, with some others. -/
theorem supplies_classClauses {others : List Rhs} (distinct : name ≠ quotedString)
    (within : .values name :: constantRules type ([.valueOf name] :: others) ⊆ clauses)
    (supplied : ∀ rhs ∈ others, Rhs.Supplied clauses rhs) :
    Supplies clauses (.values name :: constantRules type ([.valueOf name] :: others)) ∧ Settled clauses type.constantName := by
  rw [List.cons_subset] at within
  have value : Rhs.Supplied clauses [.valueOf name] := by simpa using within.1
  refine ⟨?_, settled_constantName within.2 (List.mem_cons_self ..) value⟩
  rw [Supplies.cons, supplies_constantRules, List.forall_mem_cons]
  exact ⟨distinct, value, supplied⟩

theorem supplies_numberClauses (within : numberClauses ⊆ clauses) :
    Supplies clauses numberClauses ∧ Settled clauses ParamType.number.constantName :=
  supplies_classClauses (by decide) within (by simp)

theorem supplies_stringClauses (within : stringClauses ⊆ clauses) :
    Supplies clauses stringClauses ∧ Settled clauses ParamType.string.constantName := by
  rw [stringClauses, List.cons_subset] at within
  have span : Rhs.Supplied clauses [.spanOf quotedString] := by simpa using within.1
  refine ⟨?_, settled_constantName within.2 (List.mem_cons_self ..) span⟩
  simpa [stringClauses, supplies_constantRules] using within.1

theorem supplies_measureClauses {family : String} (some : (s.catalog.units.get? family).getD [] ≠ [])
    (within : s.measureClauses family ⊆ clauses) :
    Supplies clauses (s.measureClauses family) ∧ Settled clauses (ParamType.measure family).constantName := by
  obtain ⟨unit, listed⟩ := List.exists_mem_of_ne_nil _ some
  simp only [measureClauses] at within ⊢
  rw [List.append_subset] at within
  obtain ⟨numbers, settled⟩ := supplies_numberClauses within.1
  have quantity : ∀ unit, Rhs.Supplied clauses [.nonterminal ParamType.number.constantName, .word ("unit:" ++ unit)] := by
    simp [settled]
  split at within
  next same =>
    rw [if_pos same]
    rw [List.cons_subset] at within
    refine ⟨?_, settled_constantName within.2.2 (List.mem_append_left _ (List.mem_map_of_mem listed)) (quantity unit)⟩
    simpa [numbers, supplies_constantRules, or_imp, forall_and, quantity, quotedString, settled] using within.2.1
  next other =>
    rw [if_neg other]
    refine ⟨?_, settled_constantName within.2 (List.mem_map_of_mem listed) (quantity unit)⟩
    simp [numbers, supplies_constantRules, settled]

theorem supplies_dateClauses
    (some : s.hasDurations = true → (s.catalog.units.get? durationFamily).getD [] ≠ []) (within : s.dateClauses ⊆ clauses) :
    Supplies clauses s.dateClauses ∧ Settled clauses ParamType.date.constantName := by
  have today : Rhs.Supplied clauses [.word "now"] := by simp
  simp only [dateClauses] at within ⊢
  rw [List.cons_subset] at within
  split at within
  next durations =>
    rw [if_pos durations]
    rw [List.append_subset] at within
    obtain ⟨measures, measure⟩ := supplies_measureClauses (some durations) within.2.1
    have date : Settled clauses ParamType.date.constantName := settled_constantName within.2.2 (by simp) today
    refine ⟨?_, date⟩
    simp [measures, supplies_constantRules, measure, date, within.1, quotedString, dateEdgeUnits]
  next static =>
    rw [if_neg static]
    refine ⟨?_, settled_constantName within.2 (by simp) today⟩
    simp [supplies_constantRules, within.1, quotedString, dateEdgeUnits]

theorem supplies_locationClauses (within : locationClauses ⊆ clauses) :
    Supplies clauses locationClauses ∧ Settled clauses ParamType.location.constantName :=
  supplies_classClauses (by decide) within (by simp)

theorem entityClass_ne_quotedString (kind : String) : entityClass kind ≠ quotedString := by
  have known : ∀ entry ∈ wellKnownEntities, entry.2 ≠ quotedString := by decide
  rw [entityClass]
  cases found : wellKnownEntities.lookup kind with
  | none =>
    intro same
    have letters := congrArg String.toList same
    simp [quotedString] at letters
  | some name => exact known _ (mem_of_lookup found)

theorem supplies_entityClauses {kind : String} (some : kind = deviceEntity → s.catalog.devices ≠ [])
    (within : s.entityClauses kind ⊆ clauses) :
    Supplies clauses (s.entityClauses kind) ∧ Settled clauses (ParamType.entity kind).constantName := by
  have distinct := entityClass_ne_quotedString kind
  simp only [entityClauses] at within ⊢
  split at within
  next device =>
    rw [if_pos device]
    obtain ⟨first, listed⟩ := List.exists_mem_of_ne_nil _ (some device)
    refine ⟨?_, settled_constantName within (List.mem_map_of_mem listed) (by simp)⟩
    simp [supplies_constantRules]
  next other =>
    rw [if_neg other]
    split at within
    next free =>
      rw [if_pos free]
      rw [List.cons_subset, List.append_subset] at within
      obtain ⟨strings, string⟩ := supplies_stringClauses within.2.1
      obtain ⟨all, settled⟩ := supplies_classClauses distinct (List.cons_subset.mpr ⟨within.1, within.2.2⟩) (by simp [string])
      rw [Supplies.cons] at all ⊢
      exact ⟨⟨all.1, Supplies.append.mpr ⟨strings, all.2⟩⟩, settled⟩
    next closed =>
      rw [if_neg closed]
      exact supplies_classClauses distinct within (by simp)

structure Populates (s : Schema) (type : ParamType) : Prop where
  devices : type.element = .entity deviceEntity → s.catalog.devices ≠ []
  units : ∀ family, type.element = .measure family → (s.catalog.units.get? family).getD [] ≠ []
  members : ∀ members, type.element = .enumeration members → members ≠ []

theorem populates_array {element : ParamType} : s.Populates (.array element) ↔ s.Populates element :=
  ⟨fun populates => ⟨populates.devices, populates.units, populates.members⟩,
    fun populates => ⟨populates.devices, populates.units, populates.members⟩⟩

theorem Populates.exists_form (populates : s.Populates type) : ∃ form, form ∈ type.valueForms := by
  apply List.exists_mem_of_ne_nil
  cases type with
  | enumeration members => simpa [ParamType.valueForms] using populates.members members rfl
  | _ => simp [ParamType.valueForms]

/-- Values of every type that is no list can be compared with others. -/
theorem equals_mem_operators (plain : ∀ element, type ≠ .array element) : "==" ∈ type.operators := by
  cases type with
  | array element => exact absurd rfl (plain element)
  | _ => simp [ParamType.operators, ParamType.category]

theorem constantClauses_array (element : ParamType) : s.constantClauses (.array element) =
    s.valueClauses element ++ constantRules (.array element) (element.valueForms.flatMap fun form =>
      [form, .nonterminal (ParamType.array element).constantName :: .word "," :: form]) := by
  cases element <;> rfl

theorem conditionClauses_array (element : ParamType) : s.conditionClauses (.array element) =
    s.valueClauses element ++ element.valueForms.map fun form =>
      .rule "$atom_filter" (.nonterminal (ParamType.array element).outputName :: .word "contains" :: form) := rfl

theorem conditionClauses_eq (plain : ∀ element, type ≠ .array element) : s.conditionClauses type =
    s.valueClauses type ++
    (type.operators.flatMap fun operator =>
      type.valueForms.map fun form => .rule "$atom_filter" (.nonterminal type.outputName :: .word operator :: form)) ++
    (if type.isOrdered then
      [.rule "$atom_filter" [.nonterminal type.outputName, .word "in_range", .word "[", .nonterminal type.constantName,
        .word ",", .nonterminal type.constantName, .word "]"]]
    else []) ++
    if type.hasMembership then
      s.constantClauses (.array type) ++ [.rule "$atom_filter" [.nonterminal type.outputName, .word "in_array", .word "[",
        .nonterminal (ParamType.array type).constantName, .word "]"]]
    else [] := by
  unfold conditionClauses
  split
  next element => exact absurd rfl (plain element)
  next => rfl

private theorem supplies_forms (within : s.valueClauses type ⊆ clauses)
    (constants : s.constantClauses type ⊆ clauses →
      Supplies clauses (s.constantClauses type) ∧ Settled clauses type.constantName) :
    Supplies clauses (s.valueClauses type) ∧ ∀ form ∈ type.valueForms, Rhs.Supplied clauses form := by
  cases type with
  | enumeration | boolean => simp [valueClauses, ParamType.valueForms]
  | _ =>
    obtain ⟨all, settled⟩ := constants within
    exact ⟨all, by simpa [ParamType.valueForms] using settled⟩

section

variable (durations : s.hasDurations = true → (s.catalog.units.get? durationFamily).getD [] ≠ [])
  (populates : s.Populates type)

include durations populates

/-- The clauses of a constant rely on each other only. -/
theorem supplies_constantClauses (within : s.constantClauses type ⊆ clauses) :
    Supplies clauses (s.constantClauses type) ∧ Settled clauses type.constantName := by
  induction type with
  | string => exact supplies_stringClauses within
  | number => exact supplies_numberClauses within
  | date => exact supplies_dateClauses durations within
  | location => exact supplies_locationClauses within
  | entity kind => exact supplies_entityClauses (fun device => populates.devices (device ▸ rfl)) within
  | measure family => exact supplies_measureClauses (populates.units family rfl) within
  | time => exact supplies_classClauses (by decide) within (by simp)
  | currency => exact supplies_classClauses (by decide) within (by simp)
  | boolean =>
    refine ⟨?_, settled_constantName within (List.mem_cons_self ..) (by simp)⟩
    simp [constantClauses, supplies_constantRules, ParamType.valueForms]
  | enumeration members =>
    obtain ⟨member, listed⟩ := List.exists_mem_of_ne_nil _ (populates.members members rfl)
    refine ⟨?_, settled_constantName within (List.mem_map_of_mem listed) (by simp)⟩
    simp [constantClauses, supplies_constantRules, ParamType.valueForms]
  | array element ih =>
    rw [constantClauses_array] at within ⊢
    rw [List.append_subset] at within
    have inner := populates_array.mp populates
    obtain ⟨values, forms⟩ := supplies_forms within.1 (ih inner)
    obtain ⟨form, listed⟩ := inner.exists_form
    have settled : Settled clauses (ParamType.array element).constantName :=
      settled_constantName within.2 (List.mem_flatMap.mpr ⟨form, listed, List.mem_cons_self ..⟩) (forms form listed)
    refine ⟨Supplies.append.mpr ⟨values, supplies_constantRules.mpr ?_⟩, settled⟩
    intro rhs member
    obtain ⟨form, listed, either⟩ := List.mem_flatMap.mp member
    rcases List.mem_pair.mp either with rfl | rfl
    · exact forms _ listed
    · simp [settled, forms form listed]

/-- The forms of one value rely on the clauses that come with them. -/
theorem supplies_valueClauses (within : s.valueClauses type ⊆ clauses) :
    Supplies clauses (s.valueClauses type) ∧ ∀ form ∈ type.valueForms, Rhs.Supplied clauses form :=
  supplies_forms within (supplies_constantClauses durations populates)

theorem supplied_givenForms (within : s.valueClauses type ⊆ clauses) :
    givenForms type ≠ [] ∧ ∀ form ∈ givenForms type, Rhs.Supplied clauses form := by
  cases type with
  | array element =>
    have settled := (supplies_constantClauses durations populates within).2
    simp [givenForms, settled]
  | _ =>
    obtain ⟨form, listed⟩ := populates.exists_form
    exact ⟨List.ne_nil_of_mem listed, (supplies_valueClauses durations populates within).2⟩

private theorem supplied_compared (result : Settled clauses type.outputName) (within : s.valueClauses type ⊆ clauses)
    (operator : String) : ∀ form ∈ type.valueForms,
      Rhs.Supplied clauses (.nonterminal type.outputName :: .word operator :: form) :=
  fun form listed => by simpa using ⟨result, (supplies_valueClauses durations populates within).2 form listed⟩

/-- Only types whose values are constants are ordered. -/
private theorem settled_of_isOrdered (within : s.valueClauses type ⊆ clauses) (ordered : type.isOrdered = true) :
    Settled clauses type.constantName := by
  cases type with
  | enumeration | boolean => cases ordered
  | _ => exact (supplies_constantClauses durations populates within).2

/-- Some condition on a result that can be read is derived. -/
theorem settled_condition (result : Settled clauses type.outputName) (within : s.conditionClauses type ⊆ clauses) :
    Settled clauses "$atom_filter" := by
  by_cases array : ∃ element, type = .array element
  · obtain ⟨element, rfl⟩ := array
    have inner := populates_array.mp populates
    rw [conditionClauses_array, List.append_subset] at within
    obtain ⟨form, listed⟩ := inner.exists_form
    have supplied := (supplies_valueClauses durations inner within.1).2 form listed
    exact .of_rule (within.2 (List.mem_map_of_mem listed)) (by simpa using ⟨result, supplied⟩)
  · have plain : ∀ element, type ≠ .array element := fun element same => array ⟨element, same⟩
    rw [conditionClauses_eq plain] at within
    simp only [List.append_subset] at within
    obtain ⟨form, listed⟩ := populates.exists_form
    have known := within.1.1.2 (List.mem_flatMap.mpr ⟨_, equals_mem_operators plain, List.mem_map_of_mem listed⟩)
    exact .of_rule known (supplied_compared durations populates result within.1.1.1 "==" form listed)

/-- The conditions on a result that can be read rely on each other only. -/
theorem supplies_conditionClauses (result : Settled clauses type.outputName) (within : s.conditionClauses type ⊆ clauses) :
    Supplies clauses (s.conditionClauses type) := by
  by_cases array : ∃ element, type = .array element
  · obtain ⟨element, rfl⟩ := array
    rw [conditionClauses_array] at within ⊢
    rw [List.append_subset] at within
    obtain ⟨values, forms⟩ := supplies_valueClauses durations (populates_array.mp populates) within.1
    refine Supplies.append.mpr ⟨values, Supplies.map.mpr fun form listed => ?_⟩
    simpa using ⟨result, forms form listed⟩
  · rw [conditionClauses_eq fun element same => array ⟨element, same⟩] at within ⊢
    simp only [List.append_subset] at within
    obtain ⟨⟨⟨valued, _⟩, _⟩, looked⟩ := within
    simp only [Supplies.append, Supplies.flatMap, Supplies.map]
    refine ⟨⟨⟨(supplies_valueClauses durations populates valued).1, fun operator _ => ?_⟩, ?_⟩, ?_⟩
    · exact supplied_compared durations populates result valued operator
    · split
      next ordered => simp [result, settled_of_isOrdered durations populates valued ordered]
      next => exact .nil
    · split at looked
      next member =>
        rw [if_pos member]
        rw [List.append_subset] at looked
        obtain ⟨all, list⟩ := supplies_constantClauses durations (populates_array.mpr populates) looked.1
        simpa [result, list] using all
      next none =>
        rw [if_neg none]
        exact .nil

end

end Schema

end CommandLang
