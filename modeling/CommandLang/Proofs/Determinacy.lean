import CommandLang.Proofs.Conformance
import CommandLang.Proofs.Contexts
import CommandLang.Proofs.Typing

/-! Rules of a schema that become the same rule of the pattern. They can be told apart: by their words, or by what stands
before them. -/

namespace CommandLang

namespace Schema

/-- Where rules come from whose nonterminals may depend on the catalog. -/
inductive Origin (s : Schema) : String → Rhs → Prop where
  | common {name : String} {rhs : Rhs} (known : name ∈ Pattern.commonNames.map Prod.fst) : Origin s name rhs
  | group (kind : FunctionKind) (device : String) (rhs : Rhs) : Origin s ((functionNames kind).2 ++ device) rhs
  | output {param : Param} (known : param ∈ s.params) : Origin s param.type.outputName [.word param.word]
  | constant {type : ParamType} {rhs : Rhs} (known : s.Constant type rhs) : Origin s type.constantName rhs

/-- What stands before lists and before functions behind their devices, nearest first. -/
inductive Opens (s : Schema) : String → Rhs → Prop where
  | group (kind : FunctionKind) (device : String) (seen : Rhs) :
    Opens s ((functionNames kind).2 ++ device) (.word (deviceWord true device) :: seen)
  | given {param : Param} (known : param ∈ s.params) {element : ParamType} (same : param.type = .array element) (seen : Rhs) :
    Opens s (ParamType.array element).constantName (.word "[" :: .word "=" :: .word param.word :: seen)
  | sought (type : ParamType) (seen : Rhs) :
    Opens s (ParamType.array type).constantName (.word "[" :: .word "in_array" :: .nonterminal type.outputName :: seen)
  | contained (element : ParamType) (seen : Rhs) :
    Opens s (ParamType.array element).constantName
      (.word "contains" :: .nonterminal (ParamType.array (.array element)).outputName :: seen)

variable {s : Schema} {lhs other : String} {rhs seen : Rhs}

theorem Production.origin (known : s.Production lhs rhs) : s.Origin lhs rhs := by
  cases known with
  | fixed known =>
    have all : ∀ rule ∈ fixedRules, rule.1 ∈ Pattern.commonNames.map Prod.fst := by simp [fixedRules, Pattern.commonNames]
    exact .common (all _ known)
  | @joined function | @divided function => cases function.kind <;> exact .common (by decide)
  | grouped => exact .group _ _ _
  | output known => exact .output known
  | constant known => exact .constant known
  | _ => exact .common (by decide)

/-- The sorts of nonterminals that come up only where it is told which they are. -/
def confined : List Pattern.Part := [.queries, .actions, .list, .enumeration]

theorem not_confined_of_form {type : ParamType} {form : Rhs} {name : String} (plain : ∀ element, type ≠ .array element)
    (known : form ∈ type.valueForms) (used : .nonterminal name ∈ form) : Pattern.ofName name ∉ confined := by
  rw [eq_of_mem_valueForm known used, Pattern.ofName_constantName]
  cases type with
  | array element => exact absurd rfl (plain element)
  | enumeration members =>
    obtain ⟨member, _, rfl⟩ := List.mem_map.mp known
    simp at used
  | _ => simp [Pattern.ofConstant, confined]

theorem not_confined_output (type : ParamType) : Pattern.ofName type.outputName ∉ confined := by
  rw [Pattern.ofName_outputName]
  cases type with
  | array element => cases element <;> simp [Pattern.ofOutput, confined]
  | _ => simp [Pattern.ofOutput, confined]

theorem not_confined_of_isOrdered {type : ParamType} (ordered : type.isOrdered = true) :
    Pattern.ofName type.constantName ∉ confined := by
  rw [Pattern.ofName_constantName]
  cases type with
  | enumeration | array => cases ordered
  | _ => simp [Pattern.ofConstant, confined]

theorem not_confined_answer {type : ParamType} (known : type ∈ s.answerTypes) : Pattern.ofName type.constantName ∉ confined := by
  rw [Pattern.ofName_constantName]
  cases type with
  | enumeration | array => simp [answerTypes] at known
  | _ => simp [Pattern.ofConstant, confined]

variable {front back : Rhs} {name : String}

theorem not_confined_fixed (known : (lhs, rhs) ∈ fixedRules) (used : .nonterminal name ∈ rhs) : Pattern.ofName name ∉ confined := by
  have all : ∀ rule ∈ fixedRules, ∀ symbol ∈ rule.2, ∀ name ∈ symbol.nonterminal?, Pattern.ofName name ∉ confined := by
    decide +kernel
  exact all _ known _ used name rfl

theorem eq_of_append_eq (left : Rhs) {right : Rhs} {symbol : String}
    (same : front ++ .nonterminal name :: back = left ++ .nonterminal symbol :: right)
    (confined' : Pattern.ofName name ∈ confined) (before : ∀ a, .nonterminal a ∈ left → Pattern.ofName a ∉ confined)
    (after : ∀ a, .nonterminal a ∈ right → Pattern.ofName a ∉ confined) : front = left ∧ name = symbol := by
  rcases List.append_eq_append_iff.mp same with ⟨middle, whole, rest⟩ | ⟨middle, whole, rest⟩
  · cases middle with
    | nil =>
      rw [List.append_nil] at whole
      rw [List.nil_append] at rest
      obtain ⟨equal, _⟩ := List.cons.inj rest
      exact ⟨whole.symm, Symbol.nonterminal.inj equal⟩
    | cons first middle =>
      obtain ⟨rfl, _⟩ := List.cons.inj rest
      exact absurd confined' (before name (by simp [whole]))
  · cases middle with
    | nil =>
      rw [List.append_nil] at whole
      rw [List.nil_append] at rest
      obtain ⟨equal, _⟩ := List.cons.inj rest
      exact ⟨whole, (Symbol.nonterminal.inj equal).symm⟩
    | cons first middle =>
      obtain ⟨rfl, inside⟩ := List.cons.inj rest
      exact absurd confined' (after name (by simp [inside]))

section

variable (discernible : s.Discernible) (isConfined : Pattern.ofName name ∈ confined)

include discernible isConfined

private theorem Constant.opens {type : ParamType} (known : s.Constant type (front ++ .nonterminal name :: back))
    (listed : ∀ element, type = .array element → s.Listed element)
    (outer : Pattern.ofName type.constantName ∈ confined → s.Opens type.constantName seen) :
    s.Opens name (front.reverse ++ seen) := by
  generalize whole : front ++ .nonterminal name :: back = rhs at known
  have used : .nonterminal name ∈ rhs := whole ▸ List.mem_append_right _ (List.mem_cons_self ..)
  have flat : ∀ {element}, type = .array element → ∀ inner, element ≠ .array inner := by
    rintro element same inner rfl
    exact discernible.flat inner (listed _ same)
  cases known with
  | single form => exact absurd isConfined (not_confined_of_form (flat rfl) form used)
  | @more element form known =>
    have after : ∀ a, .nonterminal a ∈ .word "," :: form → Pattern.ofName a ∉ confined := by
      intro a inside
      exact not_confined_of_form (flat rfl) known (by simpa using inside)
    obtain ⟨rfl, rfl⟩ := eq_of_append_eq [] whole isConfined (by simp) after
    exact outer isConfined
  | shifted | quoted | quantity =>
    simp only [List.mem_cons, Symbol.nonterminal.injEq, reduceCtorEq, List.not_mem_nil, or_false, false_or] at used
    rcases used with rfl | rfl <;> simp [Pattern.ofConstant, confined] at isConfined
  | _ => simp at used

omit discernible in
/-- A parameter is given a list behind a bracket, and no other value has a part that is confined. -/
private theorem opens_given {param : Param} {form : Rhs} (takes : s.Takes param) (known : form ∈ givenForms param.type)
    (whole : front ++ .nonterminal name :: back = .word param.word :: .word "=" :: form) :
    s.Opens name (front.reverse ++ seen) := by
  by_cases array : ∃ element, param.type = .array element
  · obtain ⟨element, same⟩ := array
    rw [same] at known
    obtain rfl := List.mem_singleton.mp known
    obtain ⟨rfl, rfl⟩ := eq_of_append_eq [.word param.word, .word "=", .word "["] whole isConfined (by simp) (by simp)
    exact .given takes.1 same _
  · have plain : ∀ element, param.type ≠ .array element := fun element same => array ⟨element, same⟩
    have used : .nonterminal name ∈ .word param.word :: .word "=" :: form := whole ▸ List.mem_append_right _ (List.mem_cons_self ..)
    rw [Pattern.givenForms_eq plain] at known
    exact absurd isConfined (not_confined_of_form plain known (by simpa using used))

omit discernible in
private theorem opens_contained {element : ParamType} {form : Rhs} (known : form ∈ element.valueForms)
    (whole : front ++ .nonterminal name :: back =
      .nonterminal (ParamType.array element).outputName :: .word "contains" :: form) :
    s.Opens name (front.reverse ++ seen) := by
  by_cases array : ∃ inner, element = .array inner
  · obtain ⟨inner, rfl⟩ := array
    obtain rfl := List.mem_singleton.mp known
    obtain ⟨rfl, rfl⟩ := eq_of_append_eq [.nonterminal (ParamType.array (.array inner)).outputName, .word "contains"] whole
      isConfined (by simpa using not_confined_output _) (by simp)
    exact .contained _ _
  · have used : .nonterminal name ∈ .nonterminal (ParamType.array element).outputName :: .word "contains" :: form :=
      whole ▸ List.mem_append_right _ (List.mem_cons_self ..)
    simp only [List.mem_cons, Symbol.nonterminal.injEq, reduceCtorEq, false_or] at used
    rcases used with rfl | inside
    · exact absurd isConfined (not_confined_output _)
    · exact absurd isConfined (not_confined_of_form (fun inner same => array ⟨inner, same⟩) known inside)

private theorem Production.opens (known : s.Production lhs (front ++ .nonterminal name :: back))
    (outer : Pattern.ofName lhs ∈ confined → s.Opens lhs seen) : s.Opens name (front.reverse ++ seen) := by
  generalize whole : front ++ .nonterminal name :: back = rhs at known
  have used : .nonterminal name ∈ rhs := whole ▸ List.mem_append_right _ (List.mem_cons_self ..)
  have outputs : ∀ {type : ParamType}, name ≠ type.outputName := by
    rintro type rfl
    exact not_confined_output type isConfined
  cases known with
  | fixed known => exact absurd isConfined (not_confined_fixed known used)
  | @divided function =>
    obtain ⟨rfl, rfl⟩ := eq_of_append_eq [.word (deviceWord true function.device)] whole isConfined (by simp) (by simp)
    exact .group _ _ _
  | given takes known => exact opens_given isConfined takes known whole
  | contains _ known => exact opens_contained isConfined known whole
  | @compared type operator form _ plain _ known =>
    simp only [List.mem_cons, Symbol.nonterminal.injEq, reduceCtorEq, false_or] at used
    rcases used with rfl | inside
    · exact absurd rfl outputs
    · exact absurd isConfined (not_confined_of_form plain known inside)
  | @sought type =>
    obtain ⟨rfl, rfl⟩ := eq_of_append_eq [.nonterminal type.outputName, .word "in_array", .word "["] whole
        isConfined (by simpa using not_confined_output _) (by simp)
    exact .sought _ _
  | constant known listed => exact Constant.opens discernible isConfined (whole ▸ known) listed outer
  | ranged _ ordered =>
    simp only [List.mem_cons, Symbol.nonterminal.injEq, reduceCtorEq, List.not_mem_nil, or_false, false_or, or_self] at used
    rcases used with rfl | rfl
    · exact absurd rfl outputs
    · exact absurd isConfined (not_confined_of_isOrdered ordered)
  | anyOutput | passed =>
    simp only [List.mem_cons, Symbol.nonterminal.injEq, reduceCtorEq, List.not_mem_nil, or_false, false_or] at used
    exact absurd used outputs
  | answer known =>
    simp only [List.mem_cons, Symbol.nonterminal.injEq, List.not_mem_nil, or_false] at used
    exact absurd isConfined (used ▸ not_confined_answer known)
  | asked | called | passing | passedAny =>
    simp only [List.mem_cons, Symbol.nonterminal.injEq, reduceCtorEq, List.not_mem_nil, or_false, false_or] at used
    rcases used with rfl | rfl <;> simp [confined] at isConfined
  | _ => simp at used

/-- Lists come up behind a parameter that is given one, behind what is looked for in one, or behind what contains one. -/
theorem opens_of_led (led : Led s.Production startName name seen) : s.Opens name seen := by
  induction led with
  | top =>
    rw [Pattern.ofName_startName] at isConfined
    exact absurd isConfined (by decide)
  | used _ known ih => exact Production.opens discernible isConfined known ih

end

private theorem ofGroup_ne (kind : FunctionKind) : Pattern.ofGroup kind ≠ .list ∧ Pattern.ofGroup kind ≠ .enumeration := by
  cases kind <;> simp [Pattern.ofGroup]

theorem Opens.group_inj {kind : FunctionKind} {device device' : String} (opens : s.Opens ((functionNames kind).2 ++ device) seen)
    (opens' : s.Opens ((functionNames kind).2 ++ device') seen) : device = device' := by
  have head : ∀ {device : String}, s.Opens ((functionNames kind).2 ++ device) seen →
      seen.head? = some (.word (deviceWord true device)) := by
    intro device opens
    have sort := Pattern.ofName_group kind device
    generalize named : (functionNames kind).2 ++ device = name at opens sort
    cases opens with
    | group kind' device' =>
      rw [Pattern.ofName_group] at sort
      obtain rfl : kind' = kind := by cases kind <;> cases kind' <;> simp [Pattern.ofGroup] at sort ⊢
      rw [(String.append_right_inj _).mp named]
      rfl
    | _ =>
      rw [Pattern.ofName_constantName] at sort
      exact absurd sort.symm (ofGroup_ne kind).1
  have same := (head opens).symm.trans (head opens')
  simpa [deviceWord] using same

theorem not_opens_enumeration {members : List String} : ¬ s.Opens (ParamType.enumeration members).constantName seen := by
  intro opens
  have sort := Pattern.ofName_constantName (.enumeration members)
  generalize (ParamType.enumeration members).constantName = name at opens sort
  cases opens with
  | group kind device =>
    rw [Pattern.ofName_group] at sort
    exact (ofGroup_ne kind).2 sort
  | _ =>
    rw [Pattern.ofName_constantName] at sort
    cases sort

theorem Opens.array_inj (discernible : s.Discernible) {element element' : ParamType}
    (opens : s.Opens (ParamType.array element).constantName seen)
    (opens' : s.Opens (ParamType.array element').constantName seen) :
    (ParamType.array element).constantName = (ParamType.array element').constantName := by
  have sort := Pattern.ofName_constantName (.array element)
  have sort' := Pattern.ofName_constantName (.array element')
  generalize (ParamType.array element).constantName = name at opens sort ⊢
  generalize (ParamType.array element').constantName = name' at opens' sort' ⊢
  have group : ∀ kind device, Pattern.ofName ((functionNames kind).2 ++ device) ≠ Pattern.ofConstant (.array element) := by
    intro kind device same
    exact (ofGroup_ne kind).1 (Pattern.ofName_group kind device ▸ same)
  cases opens with
  | group => exact absurd sort (group _ _)
  | @given param known element same seen =>
    generalize whole : Symbol.word "[" :: .word "=" :: .word param.word :: seen = seen' at opens'
    cases opens' with
    | group => exact absurd sort' (group _ _)
    | @given other known' element' same' =>
      have words : param.word = other.word := by simpa using (List.cons.inj (List.cons.inj (List.cons.inj whole).2).2).1
      have types := discernible.types param known other known' words
      rw [← same, ← same', types]
    | sought | contained => simp at whole
  | @sought type seen =>
    generalize whole : Symbol.word "[" :: .word "in_array" :: .nonterminal type.outputName :: seen = seen' at opens'
    cases opens' with
    | group => exact absurd sort' (group _ _)
    | sought type' =>
      have names : type.outputName = type'.outputName := by
        simpa using (List.cons.inj (List.cons.inj (List.cons.inj whole).2).2).1
      have texts := (String.append_right_inj _).mp names
      simp [ParamType.constantName, ParamType.text, texts]
    | given | contained => simp at whole
  | @contained element seen =>
    generalize whole :
      Symbol.word "contains" :: .nonterminal (ParamType.array (.array element)).outputName :: seen = seen' at opens'
    cases opens' with
    | group => exact absurd sort' (group _ _)
    | contained element' =>
      have names : (ParamType.array (.array element)).outputName = (ParamType.array (.array element')).outputName := by
        simpa using (List.cons.inj (List.cons.inj whole).2).1
      simpa [ParamType.constantName, ParamType.outputName, ParamType.text] using names
    | given | sought => simp at whole

theorem entityClass_inj {kind other : String} (same : entityClass kind = entityClass other) : kind = other := by
  have listed : ∀ entry ∈ wellKnownEntities, ¬ "GENERIC_ENTITY_".toList <+: entry.2.toList := by simp [wellKnownEntities]
  have distinct : ∀ entry ∈ wellKnownEntities, ∀ entry' ∈ wellKnownEntities, entry.2 = entry'.2 → entry.1 = entry'.1 := by
    simp [wellKnownEntities]
  have generic : ∀ {kind name : String} (other : String), wellKnownEntities.lookup kind = some name →
      name ≠ "GENERIC_ENTITY_" ++ other := by
    rintro kind _ other found rfl
    exact listed _ (mem_of_lookup found) (by simp)
  rw [entityClass, entityClass] at same
  cases found : wellKnownEntities.lookup kind with
  | some name =>
    rw [found, Option.getD_some] at same
    cases found' : wellKnownEntities.lookup other with
    | some name' =>
      rw [found', Option.getD_some] at same
      exact distinct _ (mem_of_lookup found) _ (mem_of_lookup found') same
    | none =>
      rw [found', Option.getD_none] at same
      exact absurd same (generic other found)
  | none =>
    rw [found, Option.getD_none] at same
    cases found' : wellKnownEntities.lookup other with
    | some name' =>
      rw [found', Option.getD_some] at same
      exact absurd same.symm (generic kind found')
    | none =>
      rw [found', Option.getD_none] at same
      exact (String.append_right_inj _).mp same

theorem member_ne_truth (member : String) : "enum:" ++ member ≠ "true" ∧ "enum:" ++ member ≠ "false" := by
  constructor <;> (intro same; have letters := congrArg String.toList same; simp at letters)

/-- A value belongs to one type, unless it is a member of an enum. -/
theorem constantName_eq_of_value {type other : ParamType} {form : Rhs} (value : type.Value form) (value' : other.Value form) :
    type.constantName = other.constantName ∨
      ∃ members members', type = .enumeration members ∧ other = .enumeration members' := by
  cases value with
  | @member _ member =>
    generalize whole : [Symbol.word ("enum:" ++ member)] = form at value'
    cases value' with
    | member => exact Or.inr ⟨_, _, rfl, rfl⟩
    | true => exact absurd (by simpa using whole) (member_ne_truth member).1
    | false => exact absurd (by simpa using whole) (member_ne_truth member).2
    | constant => simp at whole
  | true =>
    generalize whole : [Symbol.word "true"] = form at value'
    cases value' with
    | true | false => exact Or.inl rfl
    | @member _ member => exact absurd (by simpa using whole.symm) (member_ne_truth member).1
    | constant => simp at whole
  | false =>
    generalize whole : [Symbol.word "false"] = form at value'
    cases value' with
    | true | false => exact Or.inl rfl
    | @member _ member => exact absurd (by simpa using whole.symm) (member_ne_truth member).2
    | constant => simp at whole
  | constant =>
    generalize whole : [Symbol.nonterminal _] = form at value'
    cases value' with
    | constant => exact Or.inl (by simpa using whole)
    | _ => simp at whole

section Constants

variable {type other : ParamType} (known : s.Constant type rhs) (known' : s.Constant other rhs)

include known known'

private theorem Constant.entity_inj {kind kind' : String} (entity : type = .entity kind) (entity' : other = .entity kind') :
    kind = kind' := by
  subst entity entity'
  cases known with
  | device =>
    generalize whole : [Symbol.word _] = rhs at known'
    cases known' with
    | device => rfl
    | entity | quoted => simp at whole
  | entity =>
    generalize whole : [Symbol.valueOf _] = rhs at known'
    cases known' with
    | entity => exact entityClass_inj (by simpa using whole)
    | device | quoted => simp at whole
  | quoted =>
    generalize whole : [_, Symbol.word ("^^" ++ kind)] = rhs at known'
    cases known' with
    | quoted => simpa using whole
    | device | entity => simp at whole

private theorem Constant.measure_inj (discernible : s.Discernible) {family family' : String} (measure : type = .measure family)
    (measure' : other = .measure family') : family = family' := by
  subst measure measure'
  cases known with
  | @quantity _ unit known =>
    generalize whole : [_, Symbol.word ("unit:" ++ unit)] = rhs at known'
    cases known' with
    | @quantity _ unit' listed =>
      obtain rfl : unit = unit' := by simpa using whole
      exact discernible.units _ _ _ known listed
    | duration => simp at whole
  | duration =>
    generalize whole : [Symbol.valueOf _] = rhs at known'
    cases known' with
    | duration => rfl
    | quantity => simp at whole

private theorem Constant.simple_inj (simple : Pattern.ofConstant type = .simple) (simple' : Pattern.ofConstant other = .simple) :
    type = other := by
  have shape : ∀ {type : ParamType}, Pattern.ofConstant type = .simple → s.Constant type rhs →
      (type = .time ∧ rhs = [.valueOf "TIME"]) ∨ (type = .currency ∧ rhs = [.valueOf "CURRENCY"]) ∨
        (type = .location ∧ (rhs = [.valueOf "LOCATION"] ∨ ∃ place, rhs = [.word place])) := by
    intro type simple known
    cases known with
    | time | currency | location | place => simp
    | _ => cases simple
  rcases shape simple known with ⟨rfl, rfl⟩ | ⟨rfl, rfl⟩ | ⟨rfl, rfl | ⟨_, rfl⟩⟩ <;>
    rcases shape simple' known' with ⟨rfl, same⟩ | ⟨rfl, same⟩ | ⟨rfl, same | ⟨_, same⟩⟩ <;> simp at same ⊢

/-- Constants of lists are told apart by what is in them, unless these are members of enums. -/
private theorem Constant.array_inj {element element' : ParamType} (list : type = .array element)
    (list' : other = .array element') :
    type.constantName = other.constantName ∨
      ∃ members members', element = .enumeration members ∧ element' = .enumeration members' := by
  subst list list'
  have lists : ∀ {element element' : ParamType}, element.constantName = element'.constantName →
      (ParamType.array element).constantName = (ParamType.array element').constantName := by
    intro element element' same
    have texts := (String.append_right_inj _).mp same
    simp [ParamType.constantName, ParamType.text, texts]
  have alone : ∀ {element : ParamType} {form : Rhs}, form ∈ element.valueForms → ∃ symbol, form = [symbol] := by
    intro element form listed
    cases ParamType.value_of_mem listed <;> exact ⟨_, rfl⟩
  cases known with
  | single form =>
    generalize whole : rhs = rhs' at known'
    cases known' with
    | single form' =>
      subst whole
      exact (constantName_eq_of_value (ParamType.value_of_mem form) (ParamType.value_of_mem form')).imp_left lists
    | more =>
      obtain ⟨symbol, rfl⟩ := alone form
      simp at whole
  | more form =>
    generalize whole : Symbol.nonterminal _ :: .word "," :: _ = rhs' at known'
    cases known' with
    | single form' =>
      obtain ⟨symbol, rfl⟩ := alone form'
      simp at whole
    | more => exact Or.inl (Symbol.nonterminal.inj (List.cons.inj whole).1)

end Constants

variable {type other : ParamType}

theorem constantName_eq_of_constant (discernible : s.Discernible) (known : s.Constant type rhs) (known' : s.Constant other rhs)
    (led : Led s.Production startName type.constantName seen) (led' : Led s.Production startName other.constantName seen)
    (same : Pattern.ofConstant type = Pattern.ofConstant other) : type.constantName = other.constantName := by
  cases type with
  | string | number | boolean | date => cases other <;> first | rfl | cases same
  | time | currency | location => rw [known.simple_inj known' rfl same.symm]
  | entity kind =>
    cases other with
    | entity kind' => rw [known.entity_inj known' rfl rfl]
    | _ => cases same
  | measure family =>
    cases other with
    | measure family' => rw [known.measure_inj known' discernible rfl rfl]
    | _ => cases same
  | enumeration members =>
    have confined : Pattern.ofName (ParamType.enumeration members).constantName ∈ confined := by
      simp [Pattern.ofConstant, Schema.confined]
    exact absurd (opens_of_led discernible confined led) not_opens_enumeration
  | array element =>
    cases other with
    | array element' =>
      rcases known.array_inj known' rfl rfl with equal | ⟨members, members', rfl, rfl⟩
      · exact equal
      · have confined : ∀ element, Pattern.ofName (ParamType.array element).constantName ∈ confined := by
          simp [Pattern.ofConstant, Schema.confined]
        exact (opens_of_led discernible (confined _) led).array_inj discernible (opens_of_led discernible (confined _) led')
    | _ => cases same

/-- Sorts by where their nonterminals come from: functions, what is read of types, constants of types, and others. -/
def sourceOf : Pattern.Part → Nat
  | .queries | .actions => 1
  | .output | .textOutput | .listOutput | .listsOutput => 2
  | .string | .number | .boolean | .date | .quantity | .entity | .simple | .enumeration | .list => 3
  | _ => 0

theorem sourceOf_common (listed : lhs ∈ Pattern.commonNames.map Prod.fst) : sourceOf (Pattern.ofName lhs) = 0 := by
  obtain ⟨⟨name, sort⟩, known, rfl⟩ := List.mem_map.mp listed
  have all : ∀ entry ∈ Pattern.commonNames, sourceOf entry.2 = 0 := by simp [Pattern.commonNames, sourceOf]
  rw [Pattern.ofName_of_mem known]
  exact all _ known

theorem eq_of_common {lhs' : String} (listed : lhs ∈ Pattern.commonNames.map Prod.fst)
    (listed' : lhs' ∈ Pattern.commonNames.map Prod.fst) (same : Pattern.ofName lhs = Pattern.ofName lhs') : lhs = lhs' := by
  obtain ⟨⟨name, sort⟩, known, rfl⟩ := List.mem_map.mp listed
  obtain ⟨⟨name', sort'⟩, known', rfl⟩ := List.mem_map.mp listed'
  have distinct : (Pattern.commonNames.map Prod.snd).Nodup := by decide
  rw [Pattern.ofName_of_mem known, Pattern.ofName_of_mem known'] at same
  exact congrArg Prod.fst (List.inj_on_of_nodup_map distinct known known' same)

@[simp] theorem sourceOf_ofGroup (kind : FunctionKind) : sourceOf (Pattern.ofGroup kind) = 1 := by
  cases kind <;> rfl

@[simp] theorem sourceOf_ofOutput (type : ParamType) : sourceOf (Pattern.ofOutput type) = 2 := by
  cases type with
  | array element => cases element <;> rfl
  | _ => rfl

@[simp] theorem sourceOf_ofConstant (type : ParamType) : sourceOf (Pattern.ofConstant type) = 3 := by
  cases type <;> rfl

section Sources

variable (origin : s.Origin lhs rhs)

include origin

/-- The sort of a nonterminal tells where its rules come from. -/
theorem Origin.of_common (source : sourceOf (Pattern.ofName lhs) = 0) : lhs ∈ Pattern.commonNames.map Prod.fst := by
  cases origin with
  | common listed => exact listed
  | _ => simp at source

theorem Origin.of_group (source : sourceOf (Pattern.ofName lhs) = 1) : ∃ kind device, lhs = (functionNames kind).2 ++ device := by
  cases origin with
  | group kind device => exact ⟨kind, device, rfl⟩
  | common listed => simp [sourceOf_common listed] at source
  | _ => simp at source

theorem Origin.of_output (source : sourceOf (Pattern.ofName lhs) = 2) :
    ∃ param ∈ s.params, lhs = param.type.outputName ∧ rhs = [.word param.word] := by
  cases origin with
  | output listed => exact ⟨_, listed, rfl, rfl⟩
  | common listed => simp [sourceOf_common listed] at source
  | _ => simp at source

theorem Origin.of_constant (source : sourceOf (Pattern.ofName lhs) = 3) :
    ∃ type : ParamType, lhs = type.constantName ∧ s.Constant type rhs := by
  cases origin with
  | constant form => exact ⟨_, rfl, form⟩
  | common listed => simp [sourceOf_common listed] at source
  | _ => simp at source

end Sources

/-- Rules of a schema that become the same rule of the pattern are the same rule, if they are used behind the same symbols. -/
theorem lhs_eq_of_production (discernible : s.Discernible) {lhs' : String} (known : s.Production lhs rhs)
    (known' : s.Production lhs' rhs) (led : Led s.Production startName lhs seen) (led' : Led s.Production startName lhs' seen)
    (same : Pattern.ofName lhs = Pattern.ofName lhs') : lhs = lhs' := by
  have sources := congrArg sourceOf same
  have origin' := known'.origin
  cases known.origin with
  | common listed =>
    rw [sourceOf_common listed] at sources
    exact eq_of_common listed (origin'.of_common sources.symm) same
  | group kind device =>
    rw [Pattern.ofName_group, sourceOf_ofGroup] at sources
    obtain ⟨kind', device', rfl⟩ := origin'.of_group sources.symm
    rw [Pattern.ofName_group, Pattern.ofName_group] at same
    obtain rfl : kind = kind' := by cases kind <;> cases kind' <;> simp [Pattern.ofGroup] at same ⊢
    have confined : ∀ device, Pattern.ofName ((functionNames kind).2 ++ device) ∈ confined := by
      intro device
      rw [Pattern.ofName_group]
      cases kind <;> decide
    rw [(opens_of_led discernible (confined _) led).group_inj (opens_of_led discernible (confined _) led')]
  | @output param listed =>
    rw [Pattern.ofName_outputName, sourceOf_ofOutput] at sources
    obtain ⟨other, listed', rfl, whole⟩ := origin'.of_output sources.symm
    have words : param.word = other.word := by simpa using whole
    rw [discernible.types param listed other listed' words]
  | constant form =>
    rw [Pattern.ofName_constantName, sourceOf_ofConstant] at sources
    obtain ⟨type', rfl, form'⟩ := origin'.of_constant sources.symm
    rw [Pattern.ofName_constantName, Pattern.ofName_constantName] at same
    exact constantName_eq_of_constant discernible form form' led led' same

end Schema

end CommandLang
