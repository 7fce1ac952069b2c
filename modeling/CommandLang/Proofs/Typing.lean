import CommandLang.Proofs.Printing
import CommandLang.Proofs.Usefulness

/-! The languages of catalogs are typed. A parameter is only given constants of its type, results of its type, or, if it takes
a text, any result, and a result is only compared with constants of its type. -/

namespace CommandLang

/-- A function of the catalog has the parameter. -/
def Catalog.Declares (c : Catalog) (param : Param) : Prop :=
  ∃ function ∈ c.functions, ∃ declared ∈ function.params,
    declared.name = param.name ∧ declared.flow = param.flow ∧ ParamType.read declared.type.toList = some param.type

namespace ParamType

/-- One value of a type, as it stands in rules: a literal of an enum or a truth value, or else any constant of the type. -/
inductive Value : ParamType → Rhs → Prop where
  | member {members : List String} {member : String} (listed : member ∈ members) :
    Value (.enumeration members) [.word ("enum:" ++ member)]
  | true : Value .boolean [.word "true"]
  | false : Value .boolean [.word "false"]
  | constant {type : ParamType} (unlisted : ∀ members, type ≠ .enumeration members) (open_ : type ≠ .boolean) :
    Value type [.nonterminal type.constantName]

/-- What a parameter is given: a value, or values in brackets if it takes a list. -/
inductive Given : ParamType → Rhs → Prop where
  | value {type : ParamType} {form : Rhs} (plain : ∀ element, type ≠ .array element) (value : type.Value form) : Given type form
  | list (element : ParamType) :
    Given (.array element) [.word "[", .nonterminal (array element).constantName, .word "]"]

/-- What of another function is passed on to a parameter. -/
inductive Passed : ParamType → Symbol Terminal String → Prop where
  | result (type : ParamType) : Passed type (.nonterminal type.outputName)
  | anyResult : Passed .string (.nonterminal "$out_param_Any")
  | event : Passed .string (.word "event")

inductive Condition : ParamType → Rhs → Prop where
  | compares {type : ParamType} {operator : String} {form : Rhs} (plain : ∀ element, type ≠ .array element)
      (known : operator ∈ type.operators) (value : type.Value form) : Condition type (.word operator :: form)
  | range {type : ParamType} (ordered : type.isOrdered = true) :
    Condition type [.word "in_range", .word "[", .nonterminal type.constantName, .word ",", .nonterminal type.constantName, .word "]"]
  | among {type : ParamType} (sought : type.hasMembership = true) :
    Condition type [.word "in_array", .word "[", .nonterminal (array type).constantName, .word "]"]
  | contains {element : ParamType} {form : Rhs} (value : element.Value form) :
    Condition (.array element) (.word "contains" :: form)

theorem value_of_mem {type : ParamType} {form : Rhs} (known : form ∈ type.valueForms) : type.Value form := by
  cases type with
  | enumeration members =>
    obtain ⟨member, listed, rfl⟩ := List.mem_map.mp known
    exact .member listed
  | boolean =>
    rcases List.mem_pair.mp known with rfl | rfl
    · exact .true
    · exact .false
  | _ =>
    obtain rfl := List.mem_singleton.mp known
    exact .constant (by simp) (by simp)

theorem given_of_mem {type : ParamType} {form : Rhs} (known : form ∈ Schema.givenForms type) : type.Given form := by
  cases type with
  | array element =>
    obtain rfl := List.mem_singleton.mp known
    exact .list element
  | _ => exact .value (by simp) (value_of_mem known)

end ParamType

/-- The rules about values go by the types of parameters: what is read of each type, what parameters are given, what is
passed on to them, and what results are asked. -/
structure Draft.Typed (d : Draft) (c : Catalog) : Prop where
  read : ∀ type name, (∃ text, ParamType.read text = some type) →
    (d.HasRule type.outputName [.word ("param:" ++ name ++ ":" ++ type.text)] ↔ ∃ flow, c.Declares ⟨name, type, flow⟩)
  given : ∀ rhs, d.HasRule "$const_param" rhs → ∃ name type form, c.Declares ⟨name, type, .input⟩ ∧ type.Given form ∧
    rhs = .word ("param:" ++ name ++ ":" ++ type.text) :: .word "=" :: form
  passed : ∀ rhs, d.HasRule "$param_passing" rhs → ∃ name type symbol, c.Declares ⟨name, type, .input⟩ ∧ type.Passed symbol ∧
    rhs = [.word ("param:" ++ name ++ ":" ++ type.text), .word "=", symbol]
  asked : ∀ rhs, d.HasRule "$atom_filter" rhs → ∃ name type flow form, c.Declares ⟨name, type, flow⟩ ∧ type.Condition form ∧
    rhs = .nonterminal type.outputName :: form

namespace Schema

variable {s : Schema} {type : ParamType} {lhs : String} {rhs : Rhs}

/-- A rule about the values of parameters goes by the type of a parameter. -/
private structure Sorted (s : Schema) (lhs : String) (rhs : Rhs) : Prop where
  given : lhs = "$const_param" → ∃ param form, s.Takes param ∧ param.type.Given form ∧ rhs = .word param.word :: .word "=" :: form
  passed : lhs = "$param_passing" → ∃ param symbol, s.Takes param ∧ param.type.Passed symbol ∧
    rhs = [.word param.word, .word "=", symbol]
  asked : lhs = "$atom_filter" → ∃ param ∈ s.params, ∃ form, param.type.Condition form ∧
    rhs = .nonterminal param.type.outputName :: form

private theorem Sorted.of_ne (given : lhs ≠ "$const_param") (passed : lhs ≠ "$param_passing") (asked : lhs ≠ "$atom_filter") :
    s.Sorted lhs rhs :=
  ⟨fun same => absurd same given, fun same => absurd same passed, fun same => absurd same asked⟩

private theorem Sorted.asks {form : Rhs} (read : type ∈ s.outputTypes) (condition : type.Condition form) :
    s.Sorted "$atom_filter" (.nonterminal type.outputName :: form) := by
  obtain ⟨param, member, rfl⟩ := mem_outputTypes.mp read
  exact ⟨by simp, by simp, fun _ => ⟨param, member, form, condition, rfl⟩⟩

private theorem Sorted.passes {param : Param} {symbol : Symbol Terminal String} (takes : s.Takes param)
    (passed : param.type.Passed symbol) : s.Sorted "$param_passing" [.word param.word, .word "=", symbol] :=
  ⟨by simp, fun _ => ⟨param, symbol, takes, passed, rfl⟩, by simp⟩

private theorem Production.sorted (known : s.Production lhs rhs) : s.Sorted lhs rhs := by
  cases known with
  | fixed known =>
    have all : ∀ rule ∈ fixedRules, rule.1 ≠ "$const_param" ∧ rule.1 ≠ "$param_passing" ∧ rule.1 ≠ "$atom_filter" := by decide
    obtain ⟨given, passed, asked⟩ := all _ known
    exact .of_ne given passed asked
  | @joined function | @divided function =>
    cases function.kind <;> exact .of_ne (by decide) (by decide) (by decide)
  | @grouped function =>
    cases function.kind <;> refine .of_ne ?_ ?_ ?_ <;> simp [functionNames, ← String.toList_inj]
  | output => refine .of_ne ?_ ?_ ?_ <;> simp [ParamType.outputName, ← String.toList_inj]
  | constant => refine .of_ne ?_ ?_ ?_ <;> simp [ParamType.constantName, ← String.toList_inj]
  | given takes known => exact ⟨fun _ => ⟨_, _, takes, ParamType.given_of_mem known, rfl⟩, by simp, by simp⟩
  | passedEvent takes text => exact .passes takes (text ▸ .event)
  | passedAny takes text => exact .passes takes (text ▸ .anyResult)
  | passed takes => exact .passes takes (.result _)
  | contains read known => exact .asks read (.contains (ParamType.value_of_mem known))
  | compared read plain compares known => exact .asks read (.compares plain compares (ParamType.value_of_mem known))
  | ranged read ordered => exact .asks read (.range ordered)
  | sought read member => exact .asks read (.among member)
  | _ => exact .of_ne (by decide) (by decide) (by decide)

private theorem Production.read_of_lhs (known : s.Production type.outputName rhs) :
    ∃ param ∈ s.params, param.type.outputName = type.outputName ∧ rhs = [.word param.word] := by
  generalize name : type.outputName = lhs at known
  have letters := congrArg String.toList name
  simp only [ParamType.outputName, String.toList_append] at letters
  cases known with
  | output known => exact ⟨_, known, rfl, rfl⟩
  | anyOutput => exact absurd name (outputName_ne type).2
  | fixed known =>
    have all : ∀ rule ∈ fixedRules, "$out_param_".toList.isPrefixOf rule.1.toList = false := by decide
    have begins := all _ known
    rw [← letters] at begins
    simp [List.isPrefixOf] at begins
  | @joined function | @divided function | @grouped function =>
    cases kind : function.kind <;> simp [functionNames, kind] at letters
  | constant => simp [ParamType.constantName] at letters
  | _ => simp at letters

end Schema

namespace Catalog

variable {c : Catalog} {functions : List TypedFunction} {splitDevices : Bool} {valueCount : Nat}

theorem mem_params_iff (typed : c.typedFunctions = .ok functions) {param : Param} :
    param ∈ (Schema.mk c functions splitDevices valueCount).params ↔ c.Declares param := by
  rw [Schema.params, List.mem_eraseDups, List.mem_flatMap]
  constructor
  · rintro ⟨function, member, used⟩
    obtain ⟨source, inside, _, _, _, params⟩ := exists_declaration_of_typedFunctions typed function member
    obtain ⟨declared, listed, known⟩ := params param used
    obtain ⟨type, read, _, rfl⟩ := typeParam_eq_ok.mp known
    exact ⟨source, inside, declared, listed, rfl, rfl, read⟩
  · rintro ⟨source, inside, declared, listed, name, flow, read⟩
    obtain ⟨function, member, _, params⟩ := exists_typed_of_typedFunctions typed source inside
    obtain ⟨other, used, known⟩ := params declared listed
    obtain ⟨type, found, _, rfl⟩ := typeParam_eq_ok.mp known
    obtain rfl : type = param.type := Option.some.inj (found.symm.trans read)
    exact ⟨function, member, by rwa [name, flow] at used⟩

theorem Declares.proper {param : Param} (declares : c.Declares param) : param.type.Proper := by
  obtain ⟨_, _, _, _, _, _, read⟩ := declares
  exact ParamType.proper_of_read read

/-- The language of a catalog is typed, and no two types that can be read have the same nonterminals. -/
theorem language_typed {language : Language} (compiled : c.language splitDevices valueCount = .ok language) :
    language.grammar.Typed c ∧ ∀ type other text text', ParamType.read text = some type → ParamType.read text' = some other →
      type ≠ other → type.constantName ≠ other.constantName ∧ type.outputName ≠ other.outputName := by
  obtain ⟨functions, g, typed, drafted, rfl⟩ := language_eq_ok.mp compiled
  have member := @mem_params_iff c functions splitDevices valueCount typed
  have rules : ∀ {lhs rhs}, g.HasRule lhs rhs ↔ .rule lhs rhs ∈ (Schema.mk c functions splitDevices valueCount).clauses := by
    intro lhs rhs
    rw [Draft.toDraft_of_build drafted, Schema.hasRule_draft]
  have declared : ∀ {param : Param}, (Schema.mk c functions splitDevices valueCount).Takes param →
      c.Declares ⟨param.name, param.type, .input⟩ := by
    rintro ⟨name, type, flow⟩ ⟨taken, input⟩
    obtain rfl : flow = .input := input
    exact member.mp taken
  refine ⟨⟨?_, ?_, ?_, ?_⟩, ?_⟩
  · rintro type name ⟨text, read⟩
    rw [rules]
    constructor
    · intro known
      obtain ⟨param, known, named, word⟩ := (Schema.production_of_mem known).read_of_lhs
      have declares := member.mp known
      obtain rfl := ParamType.outputName_inj declares.proper (ParamType.proper_of_read read) named
      obtain rfl : name = param.name := by simpa [Param.word] using word
      exact ⟨param.flow, declares⟩
    · rintro ⟨flow, declares⟩
      refine Schema.outputClauses_subset _ (List.mem_flatMap.mpr ⟨_, member.mpr declares, ?_⟩)
      simp [Param.word]
  · intro rhs known
    obtain ⟨param, form, takes, given, rfl⟩ := (Schema.production_of_mem (rules.mp known)).sorted.given rfl
    exact ⟨_, _, form, declared takes, given, rfl⟩
  · intro rhs known
    obtain ⟨param, symbol, takes, passed, rfl⟩ := (Schema.production_of_mem (rules.mp known)).sorted.passed rfl
    exact ⟨_, _, symbol, declared takes, passed, rfl⟩
  · intro rhs known
    obtain ⟨param, inside, form, condition, rfl⟩ := (Schema.production_of_mem (rules.mp known)).sorted.asked rfl
    exact ⟨_, _, _, form, member.mp inside, condition, rfl⟩
  · intro type other text text' read read' apart
    have proper := ParamType.proper_of_read read
    have proper' := ParamType.proper_of_read read'
    exact ⟨fun same => apart (ParamType.constantName_inj proper proper' same),
      fun same => apart (ParamType.outputName_inj proper proper' same)⟩

private theorem exists_choice : ∃ c language, ofLines ["action @b.set in:mode Enum(on,off) in:tags Array(String)"] = .ok c ∧
    c.language true 1 = .ok language ∧ c.Declares ⟨"mode", .enumeration ["on", "off"], .input⟩ := by
  have checked : (ofLines ["action @b.set in:mode Enum(on,off) in:tags Array(String)"]).toOption.map (fun c =>
      ((c.language true 1).toOption.isSome, c.functions.any fun function => function.params.any fun declared =>
        declared.name = "mode" ∧ declared.flow = .input ∧
          ParamType.read declared.type.toList = some (.enumeration ["on", "off"]))) = some (true, true) := by decide +kernel
  obtain ⟨c, read, checked⟩ := Option.map_eq_some_iff.mp checked
  obtain ⟨compiled, declared⟩ := Prod.mk.inj checked
  obtain ⟨language, compiled⟩ := Option.isSome_iff_exists.mp compiled
  obtain ⟨function, inside, declared⟩ := List.any_eq_true.mp declared
  obtain ⟨param, listed, same⟩ := List.any_eq_true.mp declared
  exact ⟨c, language, Grammar.eq_ok_of_toOption read, Grammar.eq_ok_of_toOption compiled, function, inside, param, listed,
    of_decide_eq_true same⟩

theorem language_typed_choice : ∃ c language, ofLines ["action @b.set in:mode Enum(on,off) in:tags Array(String)"] = .ok c ∧
    c.language true 1 = .ok language ∧
    language.grammar.HasRule "$out_param_Enum(on,off)" [.word "param:mode:Enum(on,off)"] ∧
    ParamType.constantName (.array .string) ≠ ParamType.constantName .string := by
  obtain ⟨c, language, read, compiled, declares⟩ := exists_choice
  obtain ⟨typed, apart⟩ := language_typed compiled
  have known := (typed.read _ "mode" ⟨"Enum(on,off)".toList, by decide +kernel⟩).mpr ⟨_, declares⟩
  exact ⟨c, language, read, compiled, known,
    (apart _ _ "Array(String)".toList "String".toList (by decide +kernel) (by decide +kernel) (by decide)).1⟩

end Catalog

end CommandLang
