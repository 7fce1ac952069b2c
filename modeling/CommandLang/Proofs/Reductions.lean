import CommandLang.Proofs.Discernment

/-! Which rules of a catalog's language are reduced. All are, in some state on some token, except those of what is passed
on to a parameter where nothing asks for it. -/

namespace CommandLang.Catalog

def Acts (c : Catalog) : Prop := ∃ function ∈ c.functions, function.kind = .action

def TakesText (c : Catalog) : Prop :=
  ∃ function ∈ c.functions, ∃ param ∈ function.params, param.flow = .input ∧ ParamType.read param.type.toList = some .string

variable {c : Catalog} {functions : List TypedFunction} {splitDevices : Bool} {valueCount : Nat}

theorem hasKind_action_iff (typed : c.typedFunctions = .ok functions) :
    (Schema.mk c functions splitDevices valueCount).hasKind .action = true ↔ c.Acts := by
  rw [Schema.hasKind, List.any_eq_true]
  constructor
  · intro ⟨function, member, acts⟩
    obtain ⟨source, inside, kind, _⟩ := exists_declaration_of_typedFunctions typed function member
    exact ⟨source, inside, kind.symm.trans (of_decide_eq_true acts)⟩
  · intro ⟨source, inside, acts⟩
    obtain ⟨function, member, kind, _⟩ := exists_typed_of_typedFunctions typed source inside
    exact ⟨function, member, decide_eq_true (kind.trans acts)⟩

theorem takesText_iff (typed : c.typedFunctions = .ok functions) :
    (Schema.mk c functions splitDevices valueCount).takesText = true ↔ c.TakesText := by
  simp only [Schema.takesText, List.any_eq_true, Bool.and_eq_true, decide_eq_true_eq, Schema.params, List.mem_eraseDups,
    List.mem_flatMap]
  constructor
  · rintro ⟨param, ⟨function, member, used⟩, flow, text⟩
    obtain ⟨source, inside, _, _, _, params⟩ := exists_declaration_of_typedFunctions typed function member
    obtain ⟨declared, listed, known⟩ := params param used
    obtain ⟨type, read, _, rfl⟩ := typeParam_eq_ok.mp known
    exact ⟨source, inside, declared, listed, flow, text ▸ read⟩
  · rintro ⟨source, inside, declared, listed, flow, read⟩
    obtain ⟨function, member, _, params⟩ := exists_typed_of_typedFunctions typed source inside
    obtain ⟨param, used, known⟩ := params declared listed
    obtain ⟨type, found, _, rfl⟩ := typeParam_eq_ok.mp known
    exact ⟨_, ⟨function, member, used⟩, flow, Option.some.inj (found.symm.trans read)⟩

/-- The rules that are reduced, told by the functions of the schema. -/
private theorem exists_reduced_iff {language : Language} (compiled : c.language splitDevices valueCount = .ok language)
    {a : Automaton} (built : language.grammar.automaton = .ok a) {rule : Nat} {production : Rule}
    (known : a.grammar.rules[rule]? = some production) : ∃ functions, c.typedFunctions = .ok functions ∧
    ((∃ state < a.stateCount, ∃ token < a.grammar.tokenCount, a.action state token = .reduce rule) ↔
      (a.grammar.nonterminalName production.lhs = "$param_passing" →
        (Schema.mk c functions splitDevices valueCount).hasKind .action = true) ∧
      (a.grammar.nonterminalName production.lhs = "$out_param_Any" →
        (Schema.mk c functions splitDevices valueCount).hasKind .action = true ∧
          (Schema.mk c functions splitDevices valueCount).takesText = true)) := by
  obtain ⟨functions, typed, same, furnished⟩ := exists_furnished compiled
  refine ⟨functions, typed, ?_⟩
  have productive : language.grammar.number.Productive :=
    Grammar.number_productive (same ▸ Schema.productive_draft furnished)
  have numbered : a.grammar = language.grammar.number := (Grammar.automaton_tabulates built).grammar
  rw [numbered] at known ⊢
  obtain ⟨name, source, ruled, lhs, _⟩ := Grammar.number_hasRule.mp (Array.mem_of_getElem? known)
  have named : language.grammar.number.nonterminalName production.lhs = name := by
    simp [Numbered.nonterminalName, lhs, Grammar.number, List.getElem?_idxOf ruled.mem_keys]
  rw [Grammar.reduced_iff_reached productive built known, named, lhs, Grammar.reached_number ruled.mem_keys, same,
    Schema.start_draft]
  rw [same, Schema.hasRule_draft] at ruled
  have rules : (Schema.mk c functions splitDevices valueCount).draft.HasRule =
      fun lhs rhs => .rule lhs rhs ∈ (Schema.mk c functions splitDevices valueCount).clauses := by
    funext lhs rhs
    exact propext Schema.hasRule_draft
  rw [rules]
  exact Schema.reaches_iff furnished ruled

/-- Every rule of a language is reduced in some state on some token, except that what is passed on to a parameter needs an
action, and any result whatever an action and a text that is given to a parameter. -/
theorem reduced_iff {language : Language} (compiled : c.language splitDevices valueCount = .ok language) {a : Automaton}
    (built : language.grammar.automaton = .ok a) {rule : Nat} {production : Rule} (known : a.grammar.rules[rule]? = some production) :
    (∃ state < a.stateCount, ∃ token < a.grammar.tokenCount, a.action state token = .reduce rule) ↔
      (a.grammar.nonterminalName production.lhs = "$param_passing" → c.Acts) ∧
      (a.grammar.nonterminalName production.lhs = "$out_param_Any" → c.Acts ∧ c.TakesText) := by
  obtain ⟨functions, typed, reduced⟩ := exists_reduced_iff compiled built known
  rw [reduced, hasKind_action_iff typed, takesText_iff typed]

/-- What a rule of a discernible catalog is the rule of. -/
private theorem exists_production {lines : List String} {rule : Nat} {name : String}
    (checked : ((ofLines lines).toOption.bind fun c => (c.language false 1).toOption.bind fun language =>
      language.grammar.number.rules[rule]?.map fun production =>
        (decide c.Discernible, language.grammar.number.nonterminalName production.lhs)) = some (true, name)) :
    ∃ c language a production, ofLines lines = .ok c ∧ c.language false 1 = .ok language ∧
      language.grammar.automaton = .ok a ∧ a.grammar.rules[rule]? = some production ∧
      a.grammar.nonterminalName production.lhs = name := by
  obtain ⟨c, read, checked⟩ := Option.bind_eq_some_iff.mp checked
  obtain ⟨language, compiled, checked⟩ := Option.bind_eq_some_iff.mp checked
  obtain ⟨production, known, checked⟩ := Option.map_eq_some_iff.mp checked
  obtain ⟨discernible, named⟩ := Prod.mk.inj checked
  have compiled := Grammar.eq_ok_of_toOption compiled
  obtain ⟨functions, typed, same, furnished⟩ := exists_furnished compiled
  obtain ⟨a, built⟩ := Schema.exists_automaton same furnished ((of_decide_eq_true discernible).schema typed false 1)
  have numbered : a.grammar = language.grammar.number := (Grammar.automaton_tabulates built).grammar
  exact ⟨c, language, a, production, Grammar.eq_ok_of_toOption read, compiled, built, numbered ▸ known, numbered ▸ named⟩

theorem reduced_iff_quiet : ∃ catalog language a production, Catalog.ofLines ["action @b.say"] = .ok catalog ∧
    catalog.language false 1 = .ok language ∧ language.grammar.automaton = .ok a ∧ a.grammar.rules[7]? = some production ∧
    ∃ state < a.stateCount, ∃ token < a.grammar.tokenCount, a.action state token = .reduce 7 := by
  obtain ⟨catalog, language, a, production, read, compiled, built, known, named⟩ :=
    @exists_production ["action @b.say"] 7 "$rule" (by decide +kernel)
  refine ⟨catalog, language, a, production, read, compiled, built, known, (reduced_iff compiled built known).mpr ?_⟩
  rw [named]
  exact ⟨fun same => absurd same (by decide), fun same => absurd same (by decide)⟩

/-- Without an action nothing asks for what is passed on. -/
theorem passing_never_reduced : ∃ catalog language a production, ofLines ["query @a.b in:x Number"] = .ok catalog ∧
    catalog.language false 1 = .ok language ∧ language.grammar.automaton = .ok a ∧ a.grammar.rules[25]? = some production ∧
    ¬ ∃ state < a.stateCount, ∃ token < a.grammar.tokenCount, a.action state token = .reduce 25 := by
  obtain ⟨catalog, language, a, production, read, compiled, built, known, named⟩ :=
    @exists_production ["query @a.b in:x Number"] 25 "$param_passing" (by decide +kernel)
  refine ⟨catalog, language, a, production, read, compiled, built, known, fun reduced => ?_⟩
  obtain ⟨functions, typed, asked⟩ := exists_reduced_iff compiled built known
  obtain ⟨function, member, acts⟩ := (hasKind_action_iff typed).mp ((asked.mp reduced).1 named)
  have checked : (ofLines ["query @a.b in:x Number"]).toOption.map (·.functions.all (·.kind = .query)) = some true := by
    decide +kernel
  rw [read] at checked
  have queries := of_decide_eq_true (List.all_eq_true.mp (Option.some.inj checked) function member)
  cases queries.symm.trans acts

end CommandLang.Catalog
