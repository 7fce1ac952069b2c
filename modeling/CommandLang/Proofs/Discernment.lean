import CommandLang.Proofs.Determinacy
import CommandLang.Proofs.Folding

/-! Catalogs whose languages have an automaton. What a catalog spells alike has to be told apart, and then the rules of its
language fold into the pattern, whose rules are told apart by their contexts. -/

namespace CommandLang

namespace Draft

variable {d : Draft}

theorem nodup_productions_addRule (distinct : ∀ name, (d.productions name).Nodup) (lhs : String) (rhs : Rhs) (name : String) :
    ((d.addRule lhs rhs).productions name).Nodup := by
  have before : ∀ name, ((d.rules.get? name).getD []).Nodup := distinct
  simp only [productions, addRule, OrderedMap.get?_update]
  split
  · rw [Option.getD_some]
    split
    · exact before lhs
    next fresh => exact List.concat_eq_append ▸ (before lhs).concat fresh
  · exact before name

theorem nodup_productions_addRules (distinct : ∀ name, (d.productions name).Nodup) (rules : List (String × Rhs))
    (name : String) : ((d.addRules rules).productions name).Nodup := by
  induction rules generalizing d with
  | nil => exact distinct name
  | cons rule rest ih => exact ih (nodup_productions_addRule distinct rule.1 rule.2)

theorem nodup_ruleList (distinct : ∀ name, (d.productions name).Nodup) : d.ruleList.Nodup := by
  rw [ruleList, List.nodup_flatMap]
  constructor
  · rintro ⟨lhs, productions⟩ member
    have own := distinct lhs
    rw [Draft.productions, OrderedMap.get?_eq_some_iff.mpr member, Option.getD_some] at own
    exact own.map fun _ _ same => (Prod.mk.inj same).2
  · refine (List.pairwise_map.mp d.rules.nodup_keys).imp ?_
    rintro ⟨lhs, productions⟩ ⟨lhs', productions'⟩ apart
    refine List.disjoint_left.mpr fun rule inside inside' => ?_
    obtain ⟨_, _, rfl⟩ := List.mem_map.mp inside
    obtain ⟨_, _, same⟩ := List.mem_map.mp inside'
    exact apart (Prod.mk.inj same).1.symm

end Draft

namespace Schema

variable {s : Schema}

theorem nodup_ruleList_draft : s.draft.ruleList.Nodup := by
  refine Draft.nodup_ruleList fun name => ?_
  have rules : s.draft.rules = ((Draft.empty startName).addRules (s.clauses.filterMap Clause.rule?)).rules := by rw [draft_eq]
  have none : ∀ name, ((Draft.empty startName).productions name).Nodup := fun _ => List.nodup_nil
  have distinct := Draft.nodup_productions_addRules none (s.clauses.filterMap Clause.rule?) name
  rwa [Draft.productions, ← rules, ← Draft.productions] at distinct

theorem draft_folds (discernible : s.Discernible) :
    s.draft.Folds (Pattern.outline (Pattern.gives s)) (Pattern.ofTerminal s) Pattern.ofName .final .accept where
  rule known := Pattern.mem_rules discernible (production_of_mem (hasRule_draft.mp known))
  last := by
    rw [start_draft, Pattern.ofName_startName]
    exact Pattern.mem_rules_of_command _ (by decide)
  bottom := List.mem_singleton.mpr rfl

/-- A grammar with the rules of a schema has an automaton if types have values and what is spelled alike can be told apart. -/
theorem exists_automaton {g : Grammar} (same : g.toDraft = s.draft) (furnished : s.Furnished) (told : s.Discernible) :
    ∃ a, g.automaton = .ok a := by
  have production : ∀ lhs rhs, g.HasRule lhs rhs → s.Production lhs rhs := by
    intro lhs rhs known
    rw [same, hasRule_draft] at known
    exact production_of_mem known
  have start : g.start = startName := by rw [same, start_draft]
  have plain : g.hasRules Numbered.acceptName = false := by
    refine Bool.eq_false_iff.mpr fun taken => ?_
    obtain ⟨rhs, known⟩ := Draft.hasRules_iff.mp taken
    exact (production _ _ known).lhs_ne_acceptName rfl
  refine Grammar.exists_automaton plain (Grammar.number_productive (same ▸ productive_draft furnished)) ?_
  refine Grammar.clean_of_folds (same ▸ draft_folds told) (Pattern.outline_sound _) (same ▸ nodup_ruleList_draft) ?_
  intro lhs other rhs seen known known' led led' sort
  have led := start ▸ led.mono production
  have led' := start ▸ led'.mono production
  exact lhs_eq_of_production told (production _ _ known) (production _ _ known') led led' sort

end Schema

namespace ParamType

def depth : ParamType → Nat
  | .array element => element.depth + 1
  | _ => 0

theorem depth_le_of_mem_levels {type level : ParamType} (inside : level ∈ type.levels) : level.depth ≤ type.depth := by
  induction type with
  | array element ih =>
    rcases List.mem_cons.mp inside with rfl | deeper
    · exact Nat.le_refl _
    · exact Nat.le_succ_of_le (ih deeper)
  | _ =>
    obtain rfl := List.mem_singleton.mp inside
    exact Nat.le_refl _

end ParamType

namespace Catalog

variable {c : Catalog} {functions : List TypedFunction} {splitDevices : Bool} {valueCount : Nat}

/-- The parameters of all functions, as far as their types can be read. -/
def declared (c : Catalog) : List Param :=
  c.functions.flatMap fun function => function.params.filterMap fun param =>
    (ParamType.read param.type.toList).map fun type => ⟨param.name, type, param.flow⟩

theorem mem_declared {param : Param} : param ∈ c.declared ↔ c.Declares param := by
  simp only [declared, List.mem_flatMap, List.mem_filterMap, Option.map_eq_some_iff]
  constructor
  · rintro ⟨function, listed, declared, inside, type, read, rfl⟩
    exact ⟨function, listed, declared, inside, rfl, rfl, read⟩
  · rintro ⟨function, listed, declared, inside, name, flow, read⟩
    exact ⟨function, listed, declared, inside, param.type, read, by rw [name, flow]⟩

/-- What a catalog spells alike can be told apart. No word is both a query and an action, if any parameter is given values,
and parameters that are spelled alike have the same type. Lists of lists are only read, and there are no deeper lists. -/
@[mk_iff] structure Discernible (c : Catalog) : Prop where
  kinds : (∃ param ∈ c.declared, param.flow = .input) → ∀ function ∈ c.functions, ∀ other ∈ c.functions,
    function.word = other.word → function.kind = other.kind
  types : ∀ param ∈ c.declared, ∀ other ∈ c.declared, param.word = other.word → param.type = other.type
  given : ∀ param ∈ c.declared, param.flow = .input → param.type.depth ≤ 1
  read : ∀ param ∈ c.declared, param.type.depth ≤ 2

instance (c : Catalog) : Decidable c.Discernible := decidable_of_iff _ (discernible_iff c).symm

theorem eq_of_mem_units (distinct : c.units.values.flatten.Nodup) {family other unit : String}
    (listed : unit ∈ (c.units.get? family).getD []) (listed' : unit ∈ (c.units.get? other).getD []) : family = other := by
  have entry : ∀ {family : String}, unit ∈ (c.units.get? family).getD [] →
      ∃ units, (family, units) ∈ c.units.entries ∧ unit ∈ units := by
    intro family listed
    cases found : c.units.get? family with
    | none => simp [found] at listed
    | some units => exact ⟨units, OrderedMap.get?_eq_some_iff.mp found, by simpa [found] using listed⟩
  obtain ⟨units, known, inside⟩ := entry listed
  obtain ⟨units', known', inside'⟩ := entry listed'
  have disjoint := List.pairwise_map.mp (List.nodup_flatten.mp distinct).2
  by_contra apart
  have different : (family, units) ≠ (other, units') := fun same => apart (Prod.mk.inj same).1
  have : Std.Symm fun entry entry' : String × List String => entry.2.Disjoint entry'.2 :=
    ⟨fun _ _ apart _ inside inside' => apart inside' inside⟩
  exact disjoint.forall known known' different inside inside'

theorem Discernible.schema (discernible : c.Discernible) (typed : c.typedFunctions = .ok functions) (splitDevices : Bool)
    (valueCount : Nat) : (Schema.mk c functions splitDevices valueCount).Discernible := by
  have declared := fun {param : Param} (known : param ∈ (Schema.mk c functions splitDevices valueCount).params) =>
    mem_declared.mpr ((mem_params_iff typed).mp known)
  have wellFormed := exists_typedFunctions_iff.mp ⟨functions, typed⟩
  refine ⟨?_, ?_, ?_, fun _ _ _ => eq_of_mem_units wellFormed.distinct, ?_⟩
  · intro function known
    obtain ⟨source, _, _, _, word, _⟩ := exists_declaration_of_typedFunctions typed function known
    rw [word]
    simp [FunctionDecl.word]
  · intro param takes function known other known' same
    obtain ⟨source, listed, kind, _, word, _⟩ := exists_declaration_of_typedFunctions typed function known
    obtain ⟨source', listed', kind', _, word', _⟩ := exists_declaration_of_typedFunctions typed other known'
    rw [kind, kind']
    exact discernible.kinds ⟨param, declared takes.1, takes.2⟩ source listed source' listed' (word ▸ word' ▸ same)
  · intro param known other known' same
    exact discernible.types param (declared known) other (declared known') same
  · intro inner listed
    cases listed with
    | @given param takes level =>
      have flat := discernible.given param (declared takes.1) takes.2
      have deep : inner.depth + 2 ≤ param.type.depth := ParamType.depth_le_of_mem_levels level
      omega
    | @contained outer read level =>
      obtain ⟨param, known, same⟩ := Schema.mem_outputTypes.mp read
      have shallow : outer.depth + 1 ≤ 2 := (congrArg ParamType.depth same).ge.trans (discernible.read param (declared known))
      have deep : inner.depth + 2 ≤ outer.depth := ParamType.depth_le_of_mem_levels level
      omega
    | sought _ member => cases member

/-- The language of a catalog has an automaton if what the catalog spells alike can be told apart. -/
theorem exists_automaton_of_discernible {language : Language} (compiled : c.language splitDevices valueCount = .ok language)
    (discernible : c.Discernible) : ∃ a, language.grammar.automaton = .ok a := by
  obtain ⟨functions, typed, same, furnished⟩ := exists_furnished compiled
  exact Schema.exists_automaton same furnished (discernible.schema typed splitDevices valueCount)

private theorem exists_radio : ∃ c language,
    ofLines ["query @a.find in:x Number out:y Array(Array(String))", "action @a.say in:t String"] = .ok c ∧
      c.language true 2 = .ok language ∧ c.Discernible := by
  have checked : (ofLines ["query @a.find in:x Number out:y Array(Array(String))", "action @a.say in:t String"]).toOption.map
      (fun c => ((c.language true 2).toOption.isSome, decide c.Discernible)) = some (true, true) := by decide +kernel
  obtain ⟨c, read, checked⟩ := Option.map_eq_some_iff.mp checked
  obtain ⟨compiled, discernible⟩ := Prod.mk.inj checked
  obtain ⟨language, compiled⟩ := Option.isSome_iff_exists.mp compiled
  exact ⟨c, language, Grammar.eq_ok_of_toOption read, Grammar.eq_ok_of_toOption compiled, of_decide_eq_true discernible⟩

theorem exists_automaton_of_discernible_radio : ∃ c language a,
    ofLines ["query @a.find in:x Number out:y Array(Array(String))", "action @a.say in:t String"] = .ok c ∧
      c.language true 2 = .ok language ∧ c.Discernible ∧ language.grammar.automaton = .ok a := by
  obtain ⟨c, language, read, compiled, discernible⟩ := exists_radio
  obtain ⟨a, built⟩ := exists_automaton_of_discernible compiled discernible
  exact ⟨c, language, a, read, compiled, discernible, built⟩

/-- The way from programs to lists of lists of numbers, and the rules of such lists. -/
def nestedRules : List (String × Rhs) :=
  [("$input", [.nonterminal "$rule"]),
    ("$rule", [.word "now", .word "=>", .nonterminal "$action"]),
    ("$action", [.nonterminal "$call"]),
    ("$call", [.nonterminal "$call", .nonterminal "$const_param"]),
    ("$const_param", [.word "param:x:Array(Array(Number))", .word "=", .word "[", .nonterminal "$constant_Array(Array(Number))",
      .word "]"]),
    ("$constant_Array(Array(Number))", [.nonterminal "$constant_Array(Number)"]),
    ("$constant_Array(Array(Number))", [.nonterminal "$constant_Array(Array(Number))", .word ",",
      .nonterminal "$constant_Array(Number)"]),
    ("$constant_Array(Number)", [.nonterminal "$constant_Array(Number)", .word ",", .nonterminal "$constant_Number"])]

/-- Lists of lists that are given to a parameter are not told apart from their elements. -/
theorem nested_lists_conflict : ∃ c language error, ofLines ["action @a.a in:x Array(Array(Number))"] = .ok c ∧
    c.language false 1 = .ok language ∧ language.grammar.automaton = .error error ∧ error.IsConflict := by
  have checked : ((ofLines ["action @a.a in:x Array(Array(Number))"]).toOption.bind fun c =>
      (c.language false 1).toOption.map fun language => (language.grammar.start,
        language.grammar.hasRules Numbered.acceptName, nestedRules.all (· ∈ language.grammar.ruleList))) =
      some ("$input", false, true) := by decide +kernel
  obtain ⟨c, read, checked⟩ := Option.bind_eq_some_iff.mp checked
  obtain ⟨language, compiled, checked⟩ := Option.map_eq_some_iff.mp checked
  simp only [Prod.mk.injEq, List.all_eq_true, decide_eq_true_eq] at checked
  obtain ⟨start, plain, rules⟩ := checked
  simp only [nestedRules, List.forall_mem_cons] at rules
  obtain ⟨input, rule, action, call, given, single, more, longer, _⟩ := rules
  have commanded : Reached language.grammar.HasRule language.grammar.start "$action" :=
    .used (.used (start ▸ .start) input (by simp)) rule (by simp)
  have taken : Reached language.grammar.HasRule language.grammar.start "$const_param" :=
    .used (.used commanded action (by simp)) call (by simp)
  obtain ⟨error, failed, conflict⟩ :=
    Grammar.exists_conflict_of_lists plain (.used taken given (by simp)) single more longer
  exact ⟨c, language, error, Grammar.eq_ok_of_toOption read, Grammar.eq_ok_of_toOption compiled, failed, conflict⟩

end Catalog

end CommandLang
