import CommandLang.Proofs.Compilation
import CommandLang.Proofs.Reaching

/-! Which rules of a catalog's language are of use. What is passed on to a parameter is asked for by calls of actions only,
and any result whatever by texts that are passed on only. Programs lead to all other rules. -/

namespace CommandLang

namespace Schema

variable {s : Schema} {type : ParamType} {lhs name : String} {rhs : Rhs}

theorem eq_of_mem_valueForm {form : Rhs} {name : String} (known : form ∈ type.valueForms) (used : .nonterminal name ∈ form) :
    name = type.constantName := by
  cases type with
  | enumeration members =>
    obtain ⟨_, _, rfl⟩ := List.mem_map.mp known
    simp at used
  | boolean =>
    rcases List.mem_pair.mp known with rfl | rfl <;> simp at used
  | _ =>
    obtain rfl := List.mem_singleton.mp known
    simpa using used

theorem eq_of_mem_givenForm {form : Rhs} {name : String} (known : form ∈ givenForms type) (used : .nonterminal name ∈ form) :
    name = type.constantName := by
  cases type with
  | array element =>
    obtain rfl := List.mem_singleton.mp known
    simpa using used
  | _ => exact eq_of_mem_valueForm known used

theorem Constant.eq_of_mem {rhs : Rhs} {name : String} (known : s.Constant type rhs) (used : .nonterminal name ∈ rhs) :
    ∃ inner : ParamType, name = inner.constantName := by
  cases known with
  | shifted =>
    simp only [List.mem_cons, Symbol.nonterminal.injEq, reduceCtorEq, List.not_mem_nil, or_false, false_or] at used
    rcases used with rfl | rfl <;> exact ⟨_, rfl⟩
  | single form => exact ⟨_, eq_of_mem_valueForm form used⟩
  | more form =>
    simp only [List.mem_cons, Symbol.nonterminal.injEq, reduceCtorEq, false_or] at used
    rcases used with rfl | inside
    · exact ⟨_, rfl⟩
    · exact ⟨_, eq_of_mem_valueForm form inside⟩
  | _ =>
    simp only [List.mem_cons, Symbol.nonterminal.injEq, reduceCtorEq, List.not_mem_nil, or_false] at used
    try exact ⟨_, used⟩

theorem constantName_ne (type : ParamType) : type.constantName ≠ "$param_passing" ∧ type.constantName ≠ "$out_param_Any" := by
  constructor <;> (intro same; have letters := congrArg String.toList same; simp [ParamType.constantName] at letters)

theorem outputName_ne (type : ParamType) : type.outputName ≠ "$param_passing" ∧ type.outputName ≠ "$out_param_Any" := by
  constructor
  · intro same
    have letters := congrArg String.toList same
    simp [ParamType.outputName] at letters
  · intro same
    have letters := congrArg String.toList same
    cases type <;> simp [ParamType.outputName, ParamType.text] at letters

theorem groupName_ne (kind : FunctionKind) (device : String) :
    (functionNames kind).2 ++ device ≠ "$param_passing" ∧ (functionNames kind).2 ++ device ≠ "$out_param_Any" := by
  constructor <;>
    (intro same; have letters := congrArg String.toList same; cases kind <;> simp [functionNames] at letters)

/-- The nonterminals of what is passed on are used in two places: in calls of actions, and where a text is passed on. -/
theorem Production.used {name : String} (known : s.Production lhs rhs) (used : .nonterminal name ∈ rhs) :
    (name = "$param_passing" → s.hasKind .action = true) ∧
    (name = "$out_param_Any" → lhs = "$param_passing" ∧ s.takesText = true) := by
  have named : (∃ type : ParamType, name = type.constantName ∨ name = type.outputName) →
      name ≠ "$param_passing" ∧ name ≠ "$out_param_Any" := by
    rintro ⟨type, rfl | rfl⟩
    · exact constantName_ne type
    · exact outputName_ne type
  have others : name ≠ "$param_passing" ∧ name ≠ "$out_param_Any" →
      (name = "$param_passing" → s.hasKind .action = true) ∧
      (name = "$out_param_Any" → lhs = "$param_passing" ∧ s.takesText = true) :=
    fun apart => ⟨fun same => absurd same apart.1, fun same => absurd same apart.2⟩
  cases known with
  | fixed known =>
    have all : ∀ rule ∈ fixedRules, ∀ symbol ∈ rule.2, symbol ≠ .nonterminal "$param_passing" ∧ symbol ≠ .nonterminal "$out_param_Any" := by
      decide
    have apart := all _ known _ used
    simp only [ne_eq, Symbol.nonterminal.injEq] at apart
    exact others apart
  | joined | grouped | output | passedEvent | answerMember => simp at used
  | divided =>
    simp only [List.mem_cons, Symbol.nonterminal.injEq, reduceCtorEq, List.not_mem_nil, or_false, false_or] at used
    exact others (used ▸ groupName_ne _ _)
  | asked | called =>
    simp only [List.mem_cons, Symbol.nonterminal.injEq, List.not_mem_nil, or_false] at used
    rcases used with rfl | rfl <;> exact others (by decide)
  | passing _ acts =>
    simp only [List.mem_cons, Symbol.nonterminal.injEq, List.not_mem_nil, or_false] at used
    rcases used with rfl | rfl
    · exact others (by decide)
    · exact ⟨fun _ => acts, fun same => absurd same (by decide)⟩
  | passedAny takes text =>
    simp only [List.mem_cons, Symbol.nonterminal.injEq, reduceCtorEq, List.not_mem_nil, or_false, false_or] at used
    subst used
    have received : s.takesText = true := List.any_eq_true.mpr ⟨_, takes.1, by simp [takes.2, text]⟩
    exact ⟨fun same => absurd same (by decide), fun _ => ⟨rfl, received⟩⟩
  | anyOutput | passed | answer | ranged | sought =>
    simp only [List.mem_cons, Symbol.nonterminal.injEq, reduceCtorEq, List.not_mem_nil, or_false, false_or] at used
    grind
  | given _ form =>
    simp only [List.mem_cons, reduceCtorEq, false_or] at used
    exact others (named ⟨_, Or.inl (eq_of_mem_givenForm form used)⟩)
  | contains _ form | compared _ _ _ form =>
    simp only [List.mem_cons, Symbol.nonterminal.injEq, reduceCtorEq, false_or] at used
    rcases used with rfl | inside
    · exact others (named ⟨_, Or.inr rfl⟩)
    · exact others (named ⟨_, Or.inl (eq_of_mem_valueForm form inside)⟩)
  | constant form =>
    obtain ⟨inner, same⟩ := form.eq_of_mem used
    exact others (named ⟨inner, Or.inl same⟩)

/-- Programs lead to the rules of a schema, except to those of what is passed on if nothing asks for it. -/
theorem reaches_iff (furnished : s.Furnished) (known : .rule lhs rhs ∈ s.clauses) : s.Reaches lhs ↔
    (lhs = "$param_passing" → s.hasKind .action = true) ∧
    (lhs = "$out_param_Any" → s.hasKind .action = true ∧ s.takesText = true) := by
  refine ⟨fun reached => ?_, fun asked => useful_clauses furnished _ known asked.1 asked.2⟩
  have passing : ∀ {name}, s.Reaches name → name = "$param_passing" → s.hasKind .action = true := by
    intro name reached same
    cases reached with
    | start => exact absurd same (by decide)
    | used _ ruled member => exact ((production_of_mem ruled).used member).1 same
  refine ⟨passing reached, fun same => ?_⟩
  cases reached with
  | start => exact absurd same (by decide)
  | used outer ruled member =>
    obtain ⟨passed, takes⟩ := ((production_of_mem ruled).used member).2 same
    exact ⟨passing outer passed, takes⟩

/-- Lists of entities use the constants of the entities, at whatever depth these stand. -/
theorem exists_use_of_list {kind : String} (inside : type.element = .entity kind) : ∃ lhs rhs,
    .rule lhs rhs ∈ s.constantClauses (.array type) ∧ .nonterminal (ParamType.entity kind).constantName ∈ rhs := by
  induction type with
  | entity other =>
    obtain rfl := ParamType.entity.inj inside
    refine ⟨(ParamType.array (.entity other)).constantName, [.nonterminal (ParamType.entity other).constantName], ?_, by simp⟩
    simp [constantClauses_array, constantRules, ParamType.valueForms]
  | array element ih =>
    obtain ⟨lhs, rhs, known, used⟩ := ih inside
    exact ⟨lhs, rhs, constantClauses_array (s := s) _ ▸ List.mem_append_left _ known, used⟩
  | _ => cases inside

/-- Parameters of entities use the constants of the entities. -/
theorem exists_use {kind : String} {param : Param} (member : param ∈ s.params) (inside : param.type.element = .entity kind) :
    ∃ lhs rhs, .rule lhs rhs ∈ s.clauses ∧ .nonterminal (ParamType.entity kind).constantName ∈ rhs := by
  have within := conditionClauses_subset (mem_outputTypes.mpr ⟨param, member, rfl⟩)
  generalize param.type = type at within inside
  cases type with
  | entity other =>
    obtain rfl := ParamType.entity.inj inside
    rw [conditionClauses_eq (by simp)] at within
    refine ⟨"$atom_filter", [.nonterminal (ParamType.entity other).outputName, .word "==",
      .nonterminal (ParamType.entity other).constantName], within ?_, by simp⟩
    simp [ParamType.operators, ParamType.category, ParamType.valueForms]
  | array element =>
    cases element with
    | entity other =>
      obtain rfl := ParamType.entity.inj inside
      refine ⟨"$atom_filter", [.nonterminal (ParamType.array (.entity other)).outputName, .word "contains",
        .nonterminal (ParamType.entity other).constantName], within ?_, by simp⟩
      simp [conditionClauses, ParamType.valueForms]
    | array inner =>
      have innermost : inner.element = .entity kind := inside
      obtain ⟨lhs, rhs, known, used⟩ := exists_use_of_list (s := s) innermost
      exact ⟨lhs, rhs, within (List.mem_append_left _ known), used⟩
    | _ => cases inside
  | _ => cases inside

theorem Production.constant_of_lhs (known : s.Production type.constantName rhs) (named : type.text ≠ "Any") :
    ∃ other : ParamType, other.constantName = type.constantName ∧ s.Constant other rhs := by
  generalize name : type.constantName = lhs at known
  have letters := congrArg String.toList name
  simp only [ParamType.constantName, String.toList_append] at letters
  cases known with
  | constant form => exact ⟨_, rfl, form⟩
  | fixed known =>
    have all : ∀ rule ∈ fixedRules, "$constant_".toList.isPrefixOf rule.1.toList = false := by decide
    have begins := all _ known
    rw [← letters] at begins
    simp [List.isPrefixOf] at begins
  | answer | answerMember =>
    refine absurd ?_ named
    exact String.toList_inj.mp (by simpa using letters)
  | joined | divided =>
    rename_i function _ _
    cases kind : function.kind <;> simp [functionNames, kind] at letters
  | grouped =>
    rename_i function _ _
    cases kind : function.kind <;> simp [functionNames, kind] at letters
  | output => simp [ParamType.outputName] at letters
  | _ => simp at letters

theorem entity_text_inj {kind other : String} (same : (ParamType.entity kind).text = (ParamType.entity other).text) : kind = other :=
  (String.append_right_inj _).mp ((String.append_left_inj _).mp same)

/-- Where nothing is wrong with the grammar, there are devices if a parameter asks for one. -/
theorem devices_ne_nil (clean : s.draft.faults = []) {param : Param} (member : param ∈ s.params)
    (inside : param.type.element = .entity deviceEntity) : s.catalog.devices ≠ [] := by
  obtain ⟨lhs, rhs, known, used⟩ := exists_use member inside
  obtain ⟨g, built⟩ := build_of_faults_eq_nil clean
  obtain ⟨form, ruled⟩ := g.ruled (Draft.toDraft_of_build built ▸ hasRule_draft.mpr known) used
  rw [Draft.toDraft_of_build built, hasRule_draft] at ruled
  obtain ⟨type, name, constant⟩ := (production_of_mem ruled).constant_of_lhs (by decide)
  have text := (String.append_right_inj _).mp name
  cases constant with
  | device known => exact List.ne_nil_of_mem known
  | entity other | quoted other => exact absurd (entity_text_inj text) other
  | _ =>
    have letters := congrArg String.toList text
    simp [ParamType.text] at letters

end Schema

theorem exists_value_of_mapM_eq_ok {ε α β : Type} {f : α → Except ε β} {items : List α} {values : List β}
    (mapped : items.mapM f = .ok values) : ∀ item ∈ items, ∃ value ∈ values, f item = .ok value :=
  fun _ member => exists_right_of_forall₂ (mapM_eq_ok_iff.mp mapped) member

namespace Catalog

variable {c : Catalog} {functions : List TypedFunction} {splitDevices : Bool} {valueCount : Nat}

/-- Every function is typed, with all its parameters. -/
theorem exists_typed_of_typedFunctions (typed : c.typedFunctions = .ok functions) :
    ∀ source ∈ c.functions, ∃ function ∈ functions, function.kind = source.kind ∧
      ∀ declared ∈ source.params, ∃ param ∈ function.params, c.typeParam source declared = .ok param := by
  obtain ⟨_, _, typed⟩ := bind_eq_ok.mp typed
  intro source member
  obtain ⟨function, inside, found⟩ := exists_value_of_mapM_eq_ok typed source member
  obtain ⟨params, mapped, same⟩ := bind_eq_ok.mp found
  obtain rfl := Except.ok.inj same
  exact ⟨_, inside, rfl, exists_value_of_mapM_eq_ok mapped⟩

/-- The grammar of a language is that of a schema in which every type in use has values. -/
theorem exists_furnished {language : Language} (compiled : c.language splitDevices valueCount = .ok language) :
    ∃ functions, c.typedFunctions = .ok functions ∧
      language.grammar.toDraft = (Schema.mk c functions splitDevices valueCount).draft ∧
      (Schema.mk c functions splitDevices valueCount).Furnished := by
  obtain ⟨functions, g, typed, drafted, rfl⟩ := language_eq_ok.mp compiled
  have same := Draft.toDraft_of_build drafted
  have clean := g.faultless
  rw [same] at clean
  exact ⟨functions, typed, same, furnished_of_devices typed fun param member inside => Schema.devices_ne_nil clean member inside⟩

end Catalog

end CommandLang
