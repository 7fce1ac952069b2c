import CommandLang.Proofs.SchemaDraft

/-! The words of a schema. The names of classes start with a capital letter, and so do the words of the classes; all other
words of the language start with something else. No rule of a schema has the nonterminal of a class on its left. So every
word of the grammar stands for one terminal, and classes can be spelled out. -/

namespace CommandLang

def capital (text : String) : Bool := text.toList.head?.any Char.isUpper

def ordinary (name : String) : Bool := !("$terminal_".toList.isPrefixOf name.toList)

def Symbol.tidy : Symbol Terminal String → Bool
  | .terminal (.fixed text) => !capital text
  | _ => true

/-- Capital letters start the names of classes, but no other words, and the rules are not those of classes. -/
def Clause.tidy : Clause → Bool
  | .rule lhs rhs => ordinary lhs && rhs.all Symbol.tidy
  | .values name => capital name
  | .quotation => true

section

variable {text lhs name : String} {rhs : Rhs}

@[simp] theorem Symbol.tidy_word : (Symbol.word text).tidy = !capital text := rfl

@[simp] theorem Symbol.tidy_valueOf : (Symbol.valueOf name).tidy = true := rfl

@[simp] theorem Symbol.tidy_spanOf : (Symbol.spanOf name).tidy = true := rfl

@[simp] theorem Symbol.tidy_nonterminal : (Symbol.nonterminal name : Symbol Terminal String).tidy = true := rfl

@[simp] theorem Clause.tidy_rule : (Clause.rule lhs rhs).tidy = (ordinary lhs && rhs.all Symbol.tidy) := rfl

@[simp] theorem Clause.tidy_values : (Clause.values name).tidy = capital name := rfl

@[simp] theorem Clause.tidy_quotation : Clause.quotation.tidy = true := rfl

end

@[simp] theorem ordinary_constantName (type : ParamType) : ordinary type.constantName = true := by
  simp [ordinary, ParamType.constantName, List.isPrefixOf]

@[simp] theorem ordinary_outputName (type : ParamType) : ordinary type.outputName = true := by
  simp [ordinary, ParamType.outputName, List.isPrefixOf]

@[simp] theorem capital_deviceWord (splitDevices : Bool) (device : String) : capital (deviceWord splitDevices device) = false := by
  cases splitDevices <;> simp [deviceWord, capital]

theorem tidy_valueForms (type : ParamType) : type.valueForms.all (fun rhs => rhs.all Symbol.tidy) = true := by
  cases type <;> simp [ParamType.valueForms, capital]

theorem capital_of_operator (type : ParamType) : ∀ operator ∈ type.operators, capital operator = false := by
  rw [ParamType.operators]
  split <;> simp [capital]

namespace Schema

variable (s : Schema)

theorem capital_entityClass (kind : String) : capital (entityClass kind) = true := by
  rw [entityClass, wellKnownEntities]
  simp only [List.lookup_cons, List.lookup_nil]
  repeat' split
  all_goals simp [capital]

-- One lemma for each list of clauses, so that a change to one list leaves the other lemmas alone.
@[simp] theorem tidy_constantRules {type : ParamType} {productions : List Rhs} :
    (constantRules type productions).all Clause.tidy = productions.all fun rhs => rhs.all Symbol.tidy := by
  simp [constantRules, List.all_map, Function.comp_def]

@[simp] theorem tidy_numberClauses : numberClauses.all Clause.tidy = true := by
  simp [numberClauses, capital]

@[simp] theorem tidy_stringClauses : stringClauses.all Clause.tidy = true := by
  simp [stringClauses]

@[simp] theorem tidy_measureClauses (family : String) : (s.measureClauses family).all Clause.tidy = true := by
  simp only [measureClauses]
  split <;> simp [capital]

@[simp] theorem tidy_dateClauses : s.dateClauses.all Clause.tidy = true := by
  simp only [dateClauses]
  split <;> simp [capital, dateEdgeUnits]

@[simp] theorem tidy_locationClauses : locationClauses.all Clause.tidy = true := by
  simp [locationClauses, capital, places]

@[simp] theorem tidy_entityClauses (kind : String) : (s.entityClauses kind).all Clause.tidy = true := by
  have quoted : capital ("^^" ++ kind) = false := by simp [capital]
  simp only [entityClauses]
  split
  · simp
  · split <;> simp [capital_entityClass, quoted]

theorem tidy_constantClauses (type : ParamType) : (s.constantClauses type).all Clause.tidy = true := by
  induction type with
  | array element ih =>
    have forms : (element.valueForms.flatMap fun form =>
        [form, .nonterminal (ParamType.array element).constantName :: .word "," :: form]).all (fun rhs => rhs.all Symbol.tidy) = true := by
      have tidy := List.all_eq_true.mp (tidy_valueForms element)
      rw [List.all_flatMap, List.all_eq_true]
      intro form member
      have here := tidy form member
      simp [here, capital]
    unfold constantClauses
    rw [List.all_append, tidy_constantRules, forms, Bool.and_true]
    split
    · rfl
    · rfl
    · exact ih
  | _ => simp [constantClauses, capital, tidy_valueForms]

theorem tidy_valueClauses (type : ParamType) : (s.valueClauses type).all Clause.tidy = true := by
  cases type with
  | enumeration => rfl
  | boolean => rfl
  | _ => exact s.tidy_constantClauses _

theorem tidy_commandClauses : s.commandClauses.all Clause.tidy = true := by
  simp only [commandClauses, startName]
  repeat' split
  all_goals simp [tidy_constantClauses, ordinary, capital, specialAnswers, List.isPrefixOf]

theorem tidy_functionClauses (called : ∀ function ∈ s.functions, capital function.word = false) :
    s.functionClauses.all Clause.tidy = true := by
  simp only [functionClauses, List.all_flatMap, List.all_eq_true]
  intro function member
  split <;> split <;> simp [ordinary, List.isPrefixOf, called function member]

theorem capital_word (param : Param) : capital param.word = false := by
  simp [Param.word, capital]

theorem tidy_outputClauses : s.outputClauses.all Clause.tidy = true := by
  have any : ordinary "$out_param_Any" = true := by simp [ordinary, List.isPrefixOf]
  simp [outputClauses, List.all_flatMap, capital_word, any]

theorem tidy_givenForms (type : ParamType) : (givenForms type).all (fun rhs => rhs.all Symbol.tidy) = true := by
  unfold givenForms
  split
  · simp [capital]
  · exact tidy_valueForms _

theorem tidy_inputClauses : s.inputClauses.all Clause.tidy = true := by
  have passing : ordinary "$param_passing" = true ∧ ordinary "$const_param" = true := by simp [ordinary, List.isPrefixOf]
  have fixed : capital "=" = false ∧ capital "event" = false := by simp [capital]
  rw [inputClauses, List.all_flatMap, List.all_eq_true]
  intro param _
  have forms := List.all_eq_true.mp (tidy_givenForms param.type)
  dsimp only
  split <;> simp +contextual [tidy_valueClauses, passing, fixed, capital_word, forms]

theorem tidy_givingClauses : s.givingClauses.all Clause.tidy = true := by
  simp only [givingClauses]
  repeat' split
  all_goals simp [ordinary, List.isPrefixOf]

theorem tidy_conditionClauses (type : ParamType) : (s.conditionClauses type).all Clause.tidy = true := by
  have filter : ordinary "$atom_filter" = true := by simp [ordinary, List.isPrefixOf]
  have fixed : capital "contains" = false ∧ capital "in_range" = false ∧ capital "in_array" = false ∧
      capital "[" = false ∧ capital "," = false ∧ capital "]" = false := by simp [capital]
  simp only [conditionClauses]
  split
  next element =>
    have forms := List.all_eq_true.mp (tidy_valueForms element)
    simp +contextual [tidy_valueClauses, filter, fixed, forms]
  next =>
    have forms := List.all_eq_true.mp (tidy_valueForms type)
    have operators := capital_of_operator type
    simp only [List.all_append, Bool.and_eq_true]
    refine ⟨⟨⟨tidy_valueClauses s type, ?_⟩, ?_⟩, ?_⟩
    · simp +contextual [filter, forms, operators]
    · split <;> simp [filter, fixed]
    · split <;> simp [filter, fixed, tidy_constantClauses]

theorem tidy_filterClauses : s.filterClauses.all Clause.tidy = true := by
  simp only [filterClauses]
  repeat' split
  all_goals simp [ordinary, List.isPrefixOf, List.all_flatMap, tidy_conditionClauses, capital]

theorem tidy_answerClauses : s.answerClauses.all Clause.tidy = true := by
  simp [answerClauses, List.all_flatMap, tidy_constantClauses, ordinary, List.isPrefixOf, capital]

theorem tidy_clauses (called : ∀ function ∈ s.functions, capital function.word = false) : ∀ clause ∈ s.clauses, clause.tidy = true := by
  rw [← List.all_eq_true, clauses]
  simp only [List.all_append, tidy_commandClauses, s.tidy_functionClauses called, tidy_outputClauses, tidy_inputClauses,
    tidy_givingClauses, tidy_filterClauses, tidy_answerClauses, Bool.and_self]

variable {s} {name : String}

/-- A word of a class tells the name of the class. -/
theorem eq_of_mem_placeholders {other word : String} (left : word ∈ s.placeholders name) (right : word ∈ s.placeholders other) :
    name = other := by
  have digits : ∀ i : Nat, '_' ∉ (toString i).toList := by
    intro i member
    rw [Nat.toString_eq_repr, Nat.toList_repr] at member
    have digit := Nat.isDigit_of_mem_toDigits (by decide) (by decide) member
    revert digit
    decide
  obtain ⟨i, _, rfl⟩ := List.mem_map.mp left
  obtain ⟨j, _, same⟩ := List.mem_map.mp right
  have texts : other.toList ++ '_' :: (toString j).toList = name.toList ++ '_' :: (toString i).toList := by
    simpa using congrArg String.toList same
  exact (String.toList_inj.mp (append_cons_inj texts (digits j) (digits i)).1).symm

theorem capital_placeholders {word : String} (named : capital name = true) (member : word ∈ s.placeholders name) :
    capital word = true := by
  obtain ⟨i, _, rfl⟩ := List.mem_map.mp member
  simp only [capital, String.toList_append] at named ⊢
  cases letters : name.toList with
  | nil => simp [letters] at named
  | cons first rest => simpa [letters] using named

variable {g : Grammar} (called : ∀ function ∈ s.functions, capital function.word = false) (built : s.draft.build = .ok g)

include built

theorem quotation_of_copy {declaration : CopyClass} (declared : g.copy.get? name = some declaration) :
    name = quotedString ∧ declaration = s.quotation := by
  rw [Draft.toDraft_of_build built, copy_draft] at declared
  split at declared
  next used => exact ⟨used.1, (Option.some.inj declared).symm⟩
  next => cases declared

include called

theorem declares_placeholders {terminal : Terminal} {words : List String} (declares : g.Declares terminal words) :
    words = s.placeholders terminal.name ∧ capital terminal.name = true := by
  cases declares with
  | extensible declared =>
    rw [Draft.toDraft_of_build built, extensible_draft] at declared
    split at declared
    next used => exact ⟨(Option.some.inj declared).symm, s.tidy_clauses called _ used⟩
    next => cases declared
  | copy declared =>
    obtain ⟨rfl, rfl⟩ := quotation_of_copy built declared
    exact ⟨rfl, by simp [Terminal.name, quotedString, capital]⟩

theorem classesApart : g.ClassesApart := by
  intro terminal words rhs _ known
  rw [Draft.toDraft_of_build built, hasRule_draft] at known
  have tidy := s.tidy_clauses called _ known
  simp [ordinary, classNonterminal] at tidy

theorem capital_of_fixed {text : String} (member : .fixed text ∈ g.terminals) : capital text = false := by
  obtain ⟨lhs, rhs, known, used⟩ := Grammar.exists_rule_of_fixed member
  rw [Draft.toDraft_of_build built, hasRule_draft] at known
  have tidy := s.tidy_clauses called _ known
  simp only [Clause.tidy_rule, Bool.and_eq_true, List.all_eq_true] at tidy
  simpa using tidy.2 _ used

theorem unmistakable : g.Unmistakable := by
  have apart : ∀ {word terminal words}, .fixed word ∈ g.terminals → g.Declares terminal words → word ∈ words → False := by
    intro word terminal words member declares inside
    obtain ⟨rfl, named⟩ := declares_placeholders called built declares
    exact absurd (capital_placeholders named inside) (by simp [capital_of_fixed called built member])
  intro word terminal other member member' left right
  cases left with
  | fixed =>
    cases right with
    | fixed => rfl
    | classWord declares inside => exact (apart member declares inside).elim
  | classWord declares inside =>
    cases right with
    | fixed => exact (apart member' declares inside).elim
    | classWord declares' inside' =>
      apply Grammar.eq_of_declares declares declares'
      obtain ⟨rfl, _⟩ := declares_placeholders called built declares
      obtain ⟨rfl, _⟩ := declares_placeholders called built declares'
      exact eq_of_mem_placeholders inside inside'

theorem eq_fixed_of_standsFor {word : String} (small : capital word = false) {terminal : Terminal}
    (stands : g.StandsFor word terminal) : terminal = .fixed word := by
  cases stands with
  | fixed => rfl
  | classWord declares inside =>
    obtain ⟨rfl, named⟩ := declares_placeholders called built declares
    exact absurd (capital_placeholders named inside) (by simp [small])

end Schema

end CommandLang
