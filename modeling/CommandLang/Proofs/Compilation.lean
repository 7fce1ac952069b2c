import CommandLang.Proofs.Furnished
import CommandLang.Proofs.Naming
import CommandLang.Proofs.Viability
import CommandLang.Proofs.WellFormed

/-! When a catalog has a language. A well-formed catalog furnishes its schema, and a furnished schema makes a draft whose only
fault can be that its classes have no words. -/

namespace CommandLang

/-- Sequences of symbols derive words if their nonterminals do. -/
theorem Derives.exists_word {τ ν : Type} {rule : ν → List (Symbol τ ν) → Prop} {symbols : List (Symbol τ ν)}
    (each : ∀ name, .nonterminal name ∈ symbols → ∃ word : List τ, Derives rule [.nonterminal name] (word.map .terminal)) :
    ∃ word : List τ, Derives rule symbols (word.map .terminal) := by
  induction symbols with
  | nil => exact ⟨[], .refl⟩
  | cons symbol rest ih =>
    obtain ⟨later, derived⟩ := ih fun name used => each name (List.mem_cons_of_mem _ used)
    cases symbol with
    | terminal first => exact ⟨first :: later, by simpa using derived.append_left [.terminal first]⟩
    | nonterminal name =>
      obtain ⟨front, first⟩ := each name (List.mem_cons_self ..)
      exact ⟨front ++ later, by simpa using first.append derived⟩

theorem Settled.exists_word {clauses : List Clause} {lhs : String} (settled : Settled clauses lhs) :
    ∃ word : List Terminal, Derives (fun lhs rhs => .rule lhs rhs ∈ clauses) [.nonterminal lhs] (word.map .terminal) := by
  induction settled with
  | intro known _ ih =>
    obtain ⟨word, derived⟩ := Derives.exists_word ih
    exact ⟨word, (Derives.of_rule known).trans derived⟩

namespace Catalog

variable {c : Catalog} {functions : List TypedFunction}

/-- The types of a typed catalog have values, if there are devices where they are asked for. -/
theorem furnished_of_devices {splitDevices : Bool} {valueCount : Nat} (typed : c.typedFunctions = .ok functions)
    (devices : ∀ param ∈ (Schema.mk c functions splitDevices valueCount).params,
      param.type.element = .entity deviceEntity → c.devices ≠ []) : (Schema.mk c functions splitDevices valueCount).Furnished := by
  have wellFormed := exists_typedFunctions_iff.mp ⟨functions, typed⟩
  have units : ∀ family ∈ c.units.keys, (c.units.get? family).getD [] ≠ [] := by
    intro family declared
    obtain ⟨units, found⟩ := OrderedMap.get?_of_contains (OrderedMap.contains_iff.mpr declared)
    rw [found]
    exact wellFormed.measured units (List.mem_map_of_mem (OrderedMap.get?_eq_some_iff.mp found))
  refine ⟨units, fun param member => ?_⟩
  obtain ⟨function, inside, used⟩ := List.mem_flatMap.mp (List.mem_eraseDups.mp member)
  obtain ⟨source, listed, _, _, _, params⟩ := exists_declaration_of_typedFunctions typed function inside
  obtain ⟨declared, _, known⟩ := params param used
  obtain ⟨type, read, knows, rfl⟩ := typeParam_eq_ok.mp known
  refine ⟨devices _ member, fun family same => units family (knows.family family same), ?_⟩
  intro members same
  have proper := (ParamType.proper_of_read read).element
  rw [same] at proper
  exact proper.1

/-- A function that asks for a device has one. -/
theorem furnished (built : c.Built) (typed : c.typedFunctions = .ok functions) (splitDevices : Bool) (valueCount : Nat) :
    (Schema.mk c functions splitDevices valueCount).Furnished := by
  refine furnished_of_devices typed fun param member _ => ?_
  obtain ⟨function, inside, _⟩ := List.mem_flatMap.mp (List.mem_eraseDups.mp member)
  obtain ⟨source, listed, _⟩ := exists_declaration_of_typedFunctions typed function inside
  exact List.ne_nil_of_mem (built.device_mem source listed)

end Catalog

namespace Draft

variable {d : Draft} {name : String}

theorem hasRules_addRules (ruled : ∀ name ∈ d.rules.keys, d.hasRules name = true) {rules : List (String × Rhs)}
    (listed : name ∈ (d.addRules rules).rules.keys) : (d.addRules rules).hasRules name = true := by
  induction rules generalizing d with
  | nil => exact ruled name listed
  | cons rule rest ih =>
    refine ih (d := d.addRule rule.1 rule.2) (fun other member => ?_) listed
    rw [hasRules_iff]
    rw [addRule, OrderedMap.keys_update] at member
    by_cases same : other = rule.1
    · exact ⟨rule.2, hasRule_addRule.mpr (Or.inr ⟨same, rfl⟩)⟩
    · have old : other ∈ d.rules.keys := by
        split at member
        next => exact member
        next => simpa [same] using member
      obtain ⟨rhs, known⟩ := hasRules_iff.mp (ruled other old)
      exact ⟨rhs, hasRule_addRule.mpr (Or.inl known)⟩

end Draft

namespace Schema

variable {s : Schema}

theorem exists_rule_of_mem_keys {name : String} (listed : name ∈ s.draft.rules.keys) : ∃ rhs, s.draft.HasRule name rhs := by
  rw [draft_eq] at listed
  have ruled := Draft.hasRules_addRules (d := Draft.empty startName) (fun name member => (List.not_mem_nil member).elim) listed
  obtain ⟨rhs, known⟩ := Draft.hasRules_iff.mp ruled
  exact ⟨rhs, (Draft.hasRule_congr (by rw [draft_eq])).mpr known⟩

theorem productive_draft (furnished : s.Furnished) : s.draft.Productive := by
  intro lhs rhs known
  rw [hasRule_draft] at known
  have settled : Settled s.clauses lhs := .of_rule known (furnished.supplies_clauses _ known)
  have rules : s.draft.HasRule = fun lhs rhs => .rule lhs rhs ∈ s.clauses := by
    funext lhs rhs
    exact propext hasRule_draft
  rw [rules]
  exact settled.exists_word

theorem ruled_of_settled {name : String} (settled : Settled s.clauses name) : s.draft.hasRules name = true := by
  cases settled with
  | intro known _ => exact Draft.hasRules_iff.mpr ⟨_, hasRule_draft.mpr known⟩

theorem contains_extensible_draft {name : String} : s.draft.extensible.contains name = true ↔ .values name ∈ s.clauses := by
  constructor
  · intro declared
    obtain ⟨words, found⟩ := OrderedMap.get?_of_contains declared
    rw [extensible_draft] at found
    split at found
    next used => exact used
    next => cases found
  · intro used
    exact OrderedMap.contains_of_get? (extensible_draft.trans (if_pos used))

theorem contains_copy_draft {name : String} :
    s.draft.copy.contains name = true ↔ name = quotedString ∧ .quotation ∈ s.clauses := by
  constructor
  · intro declared
    obtain ⟨words, found⟩ := OrderedMap.get?_of_contains declared
    rw [copy_draft] at found
    split at found
    next used => exact used
    next => cases found
  · intro used
    exact OrderedMap.contains_of_get? (copy_draft.trans (if_pos used))

theorem symbolFault_eq_none (called : ∀ function ∈ s.functions, capital function.word = false) {lhs : String} {rhs : Rhs}
    (known : .rule lhs rhs ∈ s.clauses) {symbol : Symbol Terminal String} (used : symbol ∈ rhs)
    (supplied : symbol.Supplied s.clauses) : s.draft.symbolFault lhs symbol = none := by
  match symbol, supplied with
  | .nonterminal name, settled => simp [Draft.symbolFault, ruled_of_settled settled]
  | .terminal (.extensible name), declared => simp [Draft.symbolFault, contains_extensible_draft.mpr declared]
  | .terminal (.copy name), declared => simp [Draft.symbolFault, contains_copy_draft.mpr declared]
  | .terminal (.fixed text), _ =>
    have tidy := s.tidy_clauses called _ known
    rw [Clause.tidy_rule, Bool.and_eq_true, List.all_eq_true] at tidy
    have small : capital text = false := by simpa using tidy.2 _ used
    have valueless : s.draft.extensible.contains text = false := by
      by_contra declared
      have large := s.tidy_clauses called _ (contains_extensible_draft.mp (by simpa using declared))
      rw [Clause.tidy_values, small] at large
      cases large
    have unquoted : s.draft.copy.contains text = false := by
      by_contra declared
      obtain ⟨rfl, _⟩ := contains_copy_draft.mp (by simpa using declared)
      simp [quotedString, capital] at small
    simp [Draft.symbolFault, valueless, unquoted]

theorem start_draft : s.draft.start = startName := by
  rw [draft_eq, Draft.addRules_eq]
  rfl

/-- Beside classes without words, the draft of a furnished schema has no fault. -/
theorem emptyVocabulary_of_mem_faults (furnished : s.Furnished) (called : ∀ function ∈ s.functions, capital function.word = false)
    {fault : GrammarError} (member : fault ∈ s.draft.faults) : s.valueCount = 0 ∧ ∃ name, fault = .emptyVocabulary name := by
  have supplied := furnished.supplies_clauses
  simp only [Draft.faults, List.mem_append, or_assoc] at member
  rcases member with start | conflict | empty | symbol
  · have known : .rule startName [.nonterminal "$rule"] ∈ s.clauses := s.commandClauses_subset (by simp [commandClauses])
    have first : s.draft.hasRules s.draft.start = true := by
      rw [start_draft]
      exact ruled_of_settled (.of_rule known (by simpa using settled_rule))
    simp [first] at start
  · obtain ⟨name, listed, _⟩ := List.mem_map.mp conflict
    obtain ⟨valued, copied⟩ := List.mem_filter.mp listed
    have distinct := supplied _ (contains_extensible_draft.mp (OrderedMap.contains_iff.mpr valued))
    exact absurd (contains_copy_draft.mp copied).1 distinct
  · obtain ⟨⟨name, words⟩, listed, rfl⟩ := List.mem_map.mp empty
    obtain ⟨valued, nothing⟩ := List.mem_filter.mp listed
    have found := OrderedMap.get?_eq_some_iff.mpr valued
    rw [extensible_draft] at found
    split at found
    next =>
      obtain rfl := Option.some.inj found
      exact ⟨by simpa [placeholders] using nothing, name, rfl⟩
    next => cases found
  · obtain ⟨⟨lhs, rhs⟩, known, inside⟩ := List.mem_flatMap.mp symbol
    obtain ⟨symbol, used, failed⟩ := List.mem_filterMap.mp inside
    have ruled : .rule lhs rhs ∈ s.clauses := hasRule_draft.mp known
    rw [symbolFault_eq_none called ruled used (supplied _ ruled _ used)] at failed
    cases failed

theorem faults_ne_nil (none : s.valueCount = 0) : s.draft.faults ≠ [] := by
  have used : .values "TIME" ∈ s.clauses := s.commandClauses_subset (by simp [commandClauses, constantClauses])
  have entry : ("TIME", s.placeholders "TIME") ∈ s.draft.extensible.entries :=
    OrderedMap.get?_eq_some_iff.mp (extensible_draft.trans (if_pos used))
  have nothing : (s.placeholders "TIME").isEmpty = true := by simp [placeholders, none]
  refine List.ne_nil_of_mem (a := .emptyVocabulary "TIME") ?_
  simp only [Draft.faults, List.mem_append]
  exact Or.inl (Or.inr (List.mem_map.mpr ⟨_, List.mem_filter.mpr ⟨entry, nothing⟩, rfl⟩))

theorem build_of_faults_eq_nil (clean : s.draft.faults = []) : ∃ g, s.draft.build = .ok g := by
  rw [Draft.build]
  split
  next => exact ⟨_, rfl⟩
  next faulty => cases clean.symm.trans faulty

end Schema

namespace Catalog

variable {c : Catalog} {functions : List TypedFunction} {splitDevices : Bool} {valueCount : Nat}

theorem capital_word_of_typed (typed : c.typedFunctions = .ok functions) :
    ∀ function ∈ functions, capital function.word = false := by
  intro function member
  obtain ⟨source, _, _, _, word, _⟩ := exists_declaration_of_typedFunctions typed function member
  simp [word, FunctionDecl.word, capital]

theorem language_eq_ok {language : Language} : c.language splitDevices valueCount = .ok language ↔ ∃ functions g,
    c.typedFunctions = .ok functions ∧ (Schema.mk c functions splitDevices valueCount).draft.build = .ok g ∧
    ⟨g, .ofList (functions.map fun function => (function.word, function.device)), splitDevices⟩ = language := by
  simp only [Catalog.language, bind_eq_ok]
  refine exists_congr fun functions => ?_
  cases (Schema.mk c functions splitDevices valueCount).draft.build <;> simp [pure, Except.pure]

theorem language_eq_grammar_error {fault : GrammarError} : c.language splitDevices valueCount = .error (.grammar fault) ↔
    ∃ functions, c.typedFunctions = .ok functions ∧ (Schema.mk c functions splitDevices valueCount).draft.build = .error fault := by
  simp only [Catalog.language, bind_eq_error, typedFunctions_ne_grammar, false_or]
  refine exists_congr fun functions => ?_
  cases (Schema.mk c functions splitDevices valueCount).draft.build <;> simp [pure, Except.pure]

/-- A catalog has a language just if it is well-formed and its classes have words. Nothing else can be wrong with the
grammar, and every nonterminal of it derives a word. -/
theorem language_compiles (built : c.Built) (splitDevices : Bool) (valueCount : Nat) :
    ((∃ language, c.language splitDevices valueCount = .ok language) ↔ c.WellFormed ∧ 1 ≤ valueCount) ∧
    (∀ fault, c.language splitDevices valueCount = .error (.grammar fault) →
      (∃ name, fault = .emptyVocabulary name) ∧ valueCount = 0 ∧ c.WellFormed) ∧
    ∀ language, c.language splitDevices valueCount = .ok language → ∀ name ∈ language.grammar.rules.keys,
      ∃ word : List Terminal, Derives language.grammar.HasRule [.nonterminal name] (word.map .terminal) := by
  refine ⟨⟨?_, ?_⟩, ?_, ?_⟩
  · intro ⟨language, compiled⟩
    obtain ⟨functions, g, typed, built, _⟩ := language_eq_ok.mp compiled
    refine ⟨exists_typedFunctions_iff.mp ⟨functions, typed⟩, Nat.pos_of_ne_zero fun none => ?_⟩
    have clean := g.faultless
    rw [Draft.toDraft_of_build built] at clean
    exact Schema.faults_ne_nil none clean
  · intro ⟨wellFormed, positive⟩
    obtain ⟨functions, typed⟩ := exists_typedFunctions_iff.mpr wellFormed
    have clean : (Schema.mk c functions splitDevices valueCount).draft.faults = [] := by
      refine List.eq_nil_iff_forall_not_mem.mpr fun fault member => ?_
      have none := (Schema.emptyVocabulary_of_mem_faults (furnished built typed _ _) (capital_word_of_typed typed) member).1
      exact absurd none (Nat.ne_of_gt positive)
    obtain ⟨g, drafted⟩ := Schema.build_of_faults_eq_nil clean
    exact ⟨_, language_eq_ok.mpr ⟨functions, g, typed, drafted, rfl⟩⟩
  · intro fault failed
    obtain ⟨functions, typed, drafted⟩ := language_eq_grammar_error.mp failed
    have member := Draft.mem_faults_of_build_eq_error drafted
    obtain ⟨none, empty⟩ := Schema.emptyVocabulary_of_mem_faults (furnished built typed _ _) (capital_word_of_typed typed) member
    exact ⟨empty, none, exists_typedFunctions_iff.mp ⟨functions, typed⟩⟩
  · intro language compiled name listed
    obtain ⟨functions, g, typed, drafted, rfl⟩ := language_eq_ok.mp compiled
    rw [Draft.toDraft_of_build drafted] at listed ⊢
    obtain ⟨rhs, known⟩ := Schema.exists_rule_of_mem_keys listed
    exact Schema.productive_draft (furnished built typed _ _) name rhs known

theorem language_compiles_house :
    ∃ c, ofLines ["units ms s min", "query @house.list in:for Measure(ms) out:what Entity(tt:device)", "action @b.say in:it Array(String)"] =
      .ok c ∧ c.WellFormed ∧ ∃ language, c.language true 2 = .ok language ∧ ∀ name ∈ language.grammar.rules.keys,
        ∃ word : List Terminal, Derives language.grammar.HasRule [.nonterminal name] (word.map .terminal) := by
  have checked : ((ofLines ["units ms s min", "query @house.list in:for Measure(ms) out:what Entity(tt:device)",
      "action @b.say in:it Array(String)"]).toOption.map fun c => c.typedFunctions.toOption.isSome) = some true := by decide +kernel
  obtain ⟨c, found, typed⟩ := Option.map_eq_some_iff.mp checked
  have read := Grammar.eq_ok_of_toOption found
  obtain ⟨functions, typed⟩ := Option.isSome_iff_exists.mp typed
  have wellFormed := exists_typedFunctions_iff.mp ⟨functions, Grammar.eq_ok_of_toOption typed⟩
  obtain ⟨succeeds, _, derives⟩ := language_compiles (built_of_ofLines read) true 2
  obtain ⟨language, compiled⟩ := succeeds.mpr ⟨wellFormed, by decide⟩
  exact ⟨c, read, wellFormed, language, compiled, derives language compiled⟩

end Catalog

end CommandLang
