import CommandLang.Proofs.Counterparts

/-! Joined and divided devices. The sentences of one spelling are those of the other with the devices divided: every
function gets its device in front, and the words of devices change. -/

namespace CommandLang

open Text (unbroken)

theorem flatten_singles {α : Type} (items : List α) : (items.map ([·])).flatten = items :=
  List.flatMap_singleton' items

def FunctionKind.caller : FunctionKind → String
  | query => "$query_function"
  | action => "$action_function"

def TypedFunction.group (function : TypedFunction) : String :=
  (match function.kind with
    | .query => "$queries_"
    | .action => "$actions_") ++ function.device

namespace Schema

variable {s : Schema} {clause : Clause}

theorem mem_functionClauses_joined : clause ∈ s.joined.functionClauses ↔
    ∃ function ∈ s.functions, clause = .rule function.kind.caller [.word function.word] := by
  simp only [functionClauses, List.mem_flatMap]
  constructor
  · rintro ⟨function, member, listed⟩
    refine ⟨function, member, ?_⟩
    cases known : function.kind <;> simpa [known, joined, FunctionKind.caller] using listed
  · rintro ⟨function, member, rfl⟩
    refine ⟨function, member, ?_⟩
    cases known : function.kind <;> simp [joined, FunctionKind.caller]

theorem mem_functionClauses_divided : clause ∈ s.divided.functionClauses ↔
    ∃ function ∈ s.functions, clause = .rule function.kind.caller [.word (deviceWord true function.device), .nonterminal function.group] ∨
      clause = .rule function.group [.word function.word] := by
  simp only [functionClauses, List.mem_flatMap]
  constructor
  · rintro ⟨function, member, listed⟩
    refine ⟨function, member, ?_⟩
    cases known : function.kind <;> simpa [known, divided, TypedFunction.group, FunctionKind.caller] using listed
  · rintro ⟨function, member, either⟩
    refine ⟨function, member, ?_⟩
    cases known : function.kind <;> simpa [known, divided, TypedFunction.group, FunctionKind.caller] using either

def commonClauses (s : Schema) : List Clause :=
  s.commandClauses ++ s.outputClauses ++ s.inputClauses ++ s.givingClauses ++ s.filterClauses ++ s.answerClauses

theorem mem_clauses_iff : clause ∈ s.clauses ↔ clause ∈ s.functionClauses ∨ clause ∈ s.commonClauses := by
  simp only [clauses, commonClauses, List.mem_append, or_assoc]
  exact or_left_comm

theorem meets_commonClauses (legible : s.Legible) : List.Forall₂ Clause.Meets s.joined.commonClauses s.divided.commonClauses := by
  have outputs : List.Forall₂ Clause.Meets s.joined.outputClauses s.divided.outputClauses :=
    meets_of_neutral (neutral_outputClauses legible.joined)
  exact List.rel_append (List.rel_append (List.rel_append (List.rel_append (List.rel_append (meets_commandClauses legible) outputs)
    (meets_inputClauses legible)) meets_givingClauses) (meets_filterClauses legible)) (meets_answerClauses legible)

/-- A rule of joined devices, with its counterpart for divided ones. -/
inductive JoinedRule (s : Schema) : String → Rhs → Prop where
  | function {function : TypedFunction} (known : function ∈ s.functions) :
      JoinedRule s function.kind.caller [.word function.word]
  | device {device : String} (known : unbroken device = true)
      (counterpart : .rule deviceConstant [.word (deviceWord true device)] ∈ s.divided.clauses) :
      JoinedRule s deviceConstant [.word (deviceWord false device)]
  | shared {lhs : String} {rhs : Rhs} (neutral : (Clause.rule lhs rhs).neutral = true)
      (counterpart : .rule lhs rhs ∈ s.divided.clauses) : JoinedRule s lhs rhs

/-- A rule of divided devices, with its counterpart for joined ones. -/
inductive DividedRule (s : Schema) : String → Rhs → Prop where
  | call {function : TypedFunction} (known : function ∈ s.functions) :
      DividedRule s function.kind.caller [.word (deviceWord true function.device), .nonterminal function.group]
  | function {function : TypedFunction} (known : function ∈ s.functions) :
      DividedRule s function.group [.word function.word]
  | device {device : String} (known : unbroken device = true)
      (counterpart : .rule deviceConstant [.word (deviceWord false device)] ∈ s.joined.clauses) :
      DividedRule s deviceConstant [.word (deviceWord true device)]
  | shared {lhs : String} {rhs : Rhs} (neutral : (Clause.rule lhs rhs).neutral = true)
      (counterpart : .rule lhs rhs ∈ s.joined.clauses) : DividedRule s lhs rhs

section

variable (legible : s.Legible) {lhs : String} {rhs : Rhs}

include legible

/-- Every rule of joined devices is that of a function, or it has its counterpart. -/
theorem joinedRule_of_mem (known : .rule lhs rhs ∈ s.joined.clauses) : s.JoinedRule lhs rhs := by
  rcases mem_clauses_iff.mp known with called | common
  · obtain ⟨function, member, same⟩ := mem_functionClauses_joined.mp called
    cases same
    exact .function member
  · obtain ⟨partner, inside, meets⟩ := exists_right_of_forall₂ (meets_commonClauses legible) common
    have counterpart := mem_clauses_iff.mpr (Or.inr inside)
    cases meets with
    | shared neutral => exact .shared neutral counterpart
    | device whole => exact .device whole counterpart

/-- Every rule of divided devices is one of those of a function, or it has its counterpart. -/
theorem dividedRule_of_mem (known : .rule lhs rhs ∈ s.divided.clauses) : s.DividedRule lhs rhs := by
  rcases mem_clauses_iff.mp known with called | common
  · obtain ⟨function, member, same | same⟩ := mem_functionClauses_divided.mp called
    · cases same
      exact .call member
    · cases same
      exact .function member
  · obtain ⟨partner, inside, meets⟩ := exists_right_of_forall₂ (meets_commonClauses legible).flip common
    have counterpart := mem_clauses_iff.mpr (Or.inr inside)
    generalize target : Clause.rule lhs rhs = clause at meets
    cases meets with
    | shared neutral => subst target; exact .shared neutral counterpart
    | device whole => cases target; exact .device whole counterpart

theorem unbroken_of_values {name : String} (known : .values name ∈ s.joined.clauses) : unbroken name = true := by
  rcases mem_clauses_iff.mp known with called | common
  · simp [mem_functionClauses_joined] at called
  · obtain ⟨partner, inside, meets⟩ := exists_right_of_forall₂ (meets_commonClauses legible) common
    cases meets with
    | shared neutral => exact neutral

theorem values_mem_iff {name : String} : .values name ∈ s.joined.clauses ↔ .values name ∈ s.divided.clauses := by
  have apart : .values name ∉ s.joined.functionClauses ∧ .values name ∉ s.divided.functionClauses := by
    simp [mem_functionClauses_joined, mem_functionClauses_divided]
  simp only [mem_clauses_iff, apart, false_or]
  have both := meets_commonClauses legible
  constructor
  · intro common
    obtain ⟨partner, inside, meets⟩ := exists_right_of_forall₂ both common
    cases meets with
    | shared => exact inside
  · intro common
    obtain ⟨partner, inside, meets⟩ := exists_right_of_forall₂ both.flip common
    generalize target : Clause.values name = clause at meets
    cases meets with
    | shared => exact target ▸ inside
    | device => cases target

end

/-- What a terminal of joined devices becomes where devices are divided. -/
inductive Divides (s : Schema) : Terminal → List Terminal → Prop where
  | function {function : TypedFunction} (known : function ∈ s.functions) :
      Divides s (.fixed function.word) [.fixed (deviceWord true function.device), .fixed function.word]
  | device (device : String) : Divides s (.fixed (deviceWord false device)) [.fixed (deviceWord true device)]
  | other {terminal : Terminal} (quiet : (Symbol.terminal terminal).quiet = true) : Divides s terminal [terminal]

/-- What a symbol of a sentential form of joined devices becomes. -/
inductive Becomes (s : Schema) : Symbol Terminal String → Rhs → Prop where
  | terminal {terminal : Terminal} {part : List Terminal} (divides : s.Divides terminal part) :
      Becomes s (.terminal terminal) (part.map .terminal)
  | nonterminal {name : String} (common : grouping name = false) : Becomes s (.nonterminal name) [.nonterminal name]

/-- A symbol may also stand for a function whose device is there already. -/
inductive Announces (s : Schema) : Symbol Terminal String → Rhs → Prop where
  | settled {symbol : Symbol Terminal String} {part : Rhs} (becomes : s.Becomes symbol part) : Announces s symbol part
  | pending {function : TypedFunction} (known : function ∈ s.functions) : Announces s (.nonterminal function.kind.caller)
      [.word (deviceWord true function.device), .nonterminal function.group]

theorem becomes_of_neutral {symbol : Symbol Terminal String} (neutral : symbol.neutral = true) : s.Becomes symbol [symbol] := by
  cases symbol with
  | nonterminal name => exact .nonterminal (by simpa using neutral)
  | terminal terminal =>
    have quiet : (Symbol.terminal terminal).quiet = true := by
      cases terminal with
      | fixed => exact neutral
      | _ => rfl
    exact .terminal (.other quiet)

theorem becomes_of_neutralBody {rhs : Rhs} (neutral : neutralBody rhs = true) : List.Forall₂ s.Becomes rhs (rhs.map ([·])) := by
  simp only [neutralBody, Bool.and_eq_true, List.all_eq_true] at neutral
  exact List.forall₂_map_right_iff.mpr (List.forall₂_same.mpr fun symbol member => becomes_of_neutral (neutral.1.2 symbol member))

/-- What a rule of joined devices puts in the place of a nonterminal can be derived with divided ones. -/
theorem JoinedRule.exists_parts {lhs : String} {rhs : Rhs} (rule : s.JoinedRule lhs rhs) :
    ∃ parts, List.Forall₂ s.Becomes rhs parts ∧ Derives s.divided.draft.HasRule [.nonterminal lhs] parts.flatten := by
  cases rule with
  | @function function known =>
    refine ⟨[[.word (deviceWord true function.device), .word function.word]], .cons (.terminal (.function known)) .nil, ?_⟩
    have listed : ∀ clause, clause = .rule function.kind.caller [.word (deviceWord true function.device), .nonterminal function.group] ∨
        clause = .rule function.group [.word function.word] → clause ∈ s.divided.clauses := fun clause either =>
      mem_clauses_iff.mpr (Or.inl (mem_functionClauses_divided.mpr ⟨function, known, either⟩))
    have called := Derives.of_rule (hasRule_draft.mpr (listed _ (Or.inl rfl)))
    exact @Derives.rewrite _ _ _ _ [_] [] _ _ called (hasRule_draft.mpr (listed _ (Or.inr rfl)))
  | @device device known counterpart =>
    exact ⟨[[.word (deviceWord true device)]], .cons (.terminal (.device device)) .nil, .of_rule (hasRule_draft.mpr counterpart)⟩
  | shared neutral counterpart =>
    simp only [Clause.neutral_rule, Bool.and_eq_true] at neutral
    exact ⟨_, becomes_of_neutralBody neutral.1.2, (flatten_singles rhs).symm ▸ .of_rule (hasRule_draft.mpr counterpart)⟩

/-- Whatever is derived with joined devices becomes something that is derived with divided ones. -/
theorem exists_divided_form (legible : s.Legible) {form : Rhs} (derived : Derives s.joined.draft.HasRule [.nonterminal startName] form) :
    ∃ parts, List.Forall₂ s.Becomes form parts ∧ Derives s.divided.draft.HasRule [.nonterminal startName] parts.flatten := by
  induction derived with
  | refl => exact ⟨[[.nonterminal startName]], .cons (.nonterminal (by decide)) .nil, .refl⟩
  | tail _ step ih =>
    obtain ⟨parts, becomes, derived⟩ := ih
    cases step with
    | @intro front back lhs rhs known =>
      obtain ⟨left, rest, rfl, before, behind⟩ := exists_append_of_forall₂ becomes
      obtain ⟨part, right, here, after, rfl⟩ := List.forall₂_cons_left_iff.mp behind
      obtain ⟨changed, inside, rewritten⟩ := (joinedRule_of_mem legible (hasRule_draft.mp known)).exists_parts
      refine ⟨left ++ changed ++ right, List.rel_append (List.rel_append before inside) after, derived.trans ?_⟩
      cases here with
      | nonterminal => simpa using (rewritten.append_right right.flatten).append_left left.flatten

private theorem exists_part {α : Type} {front back : List α} {a : α} {parts : List (List α)}
    (whole : front ++ a :: back = parts.flatten) : ∃ left right before after, parts = left ++ (before ++ a :: after) :: right ∧
      front = left.flatten ++ before ∧ back = after ++ right.flatten := by
  induction parts generalizing front with
  | nil => simp at whole
  | cons part parts ih =>
    rw [List.flatten_cons] at whole
    rcases append_cons_eq_append whole with ⟨inner, rfl, rfl⟩ | ⟨inner, rfl, later⟩
    · exact ⟨[], parts, front, inner, rfl, rfl, rfl⟩
    · obtain ⟨left, right, before, after, rfl, rfl, rfl⟩ := ih later.symm
      exact ⟨part :: left, right, before, after, rfl, by simp, rfl⟩

theorem caller_ungrouped (kind : FunctionKind) : grouping kind.caller = false := by
  cases kind <;> decide

theorem grouping_group (function : TypedFunction) : grouping function.group = true := by
  cases known : function.kind <;> simp [TypedFunction.group, known, grouping, List.isPrefixOf]

theorem group_inj {function other : TypedFunction} (same : function.group = other.group) :
    function.kind = other.kind ∧ function.device = other.device := by
  have texts := congrArg String.toList same
  cases known : function.kind <;> cases known' : other.kind <;>
    simp [TypedFunction.group, known, known', String.toList_inj] at texts ⊢
  · exact texts
  · exact texts

/-- A nonterminal in a part is that of the symbol itself, or it is what is left of a function whose device is there. -/
theorem Announces.nonterminal {symbol : Symbol Terminal String} {before after : Rhs} {name : String}
    (announces : s.Announces symbol (before ++ .nonterminal name :: after)) :
    (before = [] ∧ after = [] ∧ symbol = .nonterminal name ∧ grouping name = false) ∨
      ∃ function ∈ s.functions, before = [.word (deviceWord true function.device)] ∧ after = [] ∧
        symbol = .nonterminal function.kind.caller ∧ name = function.group := by
  generalize whole : before ++ .nonterminal name :: after = part at announces
  cases announces with
  | settled becomes =>
    cases becomes with
    | @terminal _ part =>
      have member : Symbol.nonterminal name ∈ part.map (Symbol.terminal : Terminal → Symbol Terminal String) := by simp [← whole]
      simp at member
    | nonterminal common =>
      obtain ⟨rfl, same⟩ : before = [] ∧ Symbol.nonterminal name :: after = [.nonterminal _] := by
        cases before with
        | nil => exact ⟨rfl, whole⟩
        | cons first before => simp at whole
      cases same
      exact Or.inl ⟨rfl, rfl, rfl, common⟩
  | @pending function known =>
    cases before with
    | nil => cases whole
    | cons first before =>
      obtain ⟨rfl, behind⟩ := List.cons.inj whole
      cases before with
      | nil =>
        cases behind
        exact Or.inr ⟨function, known, rfl, rfl, rfl, rfl⟩
      | cons second before => simp at behind

private theorem announces_of_becomes {form : Rhs} {parts : List Rhs} (becomes : List.Forall₂ s.Becomes form parts) :
    List.Forall₂ s.Announces form parts :=
  becomes.imp fun _ _ => .settled

theorem mem_clauses_of_function {function : TypedFunction} (known : function ∈ s.functions) :
    .rule function.kind.caller [.word function.word] ∈ s.joined.clauses :=
  mem_clauses_iff.mpr (Or.inl (mem_functionClauses_joined.mpr ⟨function, known, rfl⟩))

/-- A step with divided devices is one with joined devices, or it puts the device of a function first. -/
theorem Announces.exists_changed {symbol : Symbol Terminal String} {before after rhs : Rhs} {lhs : String}
    (announces : s.Announces symbol (before ++ .nonterminal lhs :: after)) (rule : s.DividedRule lhs rhs) :
    ∃ changed parts, Derives s.joined.draft.HasRule [symbol] changed ∧ List.Forall₂ s.Announces changed parts ∧
      before ++ rhs ++ after = parts.flatten := by
  rcases announces.nonterminal with ⟨rfl, rfl, rfl, ungrouped⟩ | ⟨function, known, rfl, rfl, rfl, rfl⟩
  · cases rule with
    | call known => exact ⟨_, _, .refl, .cons (.pending known) .nil, rfl⟩
    | @function function => exact absurd (grouping_group function) (by simp [ungrouped])
    | @device device _ counterpart =>
      have part : s.Announces (.word (deviceWord false device)) [.word (deviceWord true device)] :=
        .settled (.terminal (.device device))
      exact ⟨_, _, .of_rule (hasRule_draft.mpr counterpart), .cons part .nil, rfl⟩
    | shared neutral counterpart =>
      simp only [Clause.neutral_rule, Bool.and_eq_true] at neutral
      refine ⟨rhs, _, .of_rule (hasRule_draft.mpr counterpart), announces_of_becomes (becomes_of_neutralBody neutral.1.2), ?_⟩
      simp [flatten_singles]
  · have grouped := grouping_group function
    generalize named : function.group = lhs at rule grouped
    cases rule with
    | @call other => exact absurd grouped (by simp [caller_ungrouped])
    | @function other known' =>
      obtain ⟨kind, device⟩ := group_inj named
      have part : s.Announces (.word other.word) [.word (deviceWord true other.device), .word other.word] :=
        .settled (.terminal (.function known'))
      refine ⟨_, _, .of_rule (hasRule_draft.mpr ?_), .cons part .nil, by simp [device]⟩
      exact kind ▸ mem_clauses_of_function known'
    | device => exact absurd grouped (by simp [deviceConstant])
    | shared neutral => exact absurd grouped (by simp_all)

/-- Whatever is derived with divided devices is announced by something that is derived with joined ones. -/
theorem exists_joined_form (legible : s.Legible) {form : Rhs} (derived : Derives s.divided.draft.HasRule [.nonterminal startName] form) :
    ∃ source parts, Derives s.joined.draft.HasRule [.nonterminal startName] source ∧
      List.Forall₂ s.Announces source parts ∧ form = parts.flatten := by
  induction derived with
  | refl => exact ⟨_, _, .refl, .cons (.settled (.nonterminal (by decide))) .nil, rfl⟩
  | tail _ step ih =>
    obtain ⟨source, parts, derived, announces, flat⟩ := ih
    cases step with
    | @intro front back lhs rhs known =>
      obtain ⟨left, right, before, after, rfl, rfl, rfl⟩ := exists_part flat
      obtain ⟨sources, rest, rfl, earlier, behind⟩ := exists_append_of_forall₂ announces.flip
      obtain ⟨symbol, others, here, later, rfl⟩ := List.forall₂_cons_left_iff.mp behind
      obtain ⟨changed, parts, rewritten, inside, same⟩ := here.exists_changed (dividedRule_of_mem legible (hasRule_draft.mp known))
      refine ⟨sources ++ changed ++ others, left ++ parts ++ right, derived.trans ?_,
        List.rel_append (List.rel_append earlier.flip inside) later.flip, by simp [← same]⟩
      simpa using (rewritten.append_right others).append_left sources

theorem draft_start (s : Schema) : s.draft.start = startName := by
  rw [draft_eq, Draft.addRules_eq]
  rfl

private theorem exists_divides {word : List Terminal} {parts : List Rhs} (becomes : List.Forall₂ s.Becomes (word.map .terminal) parts) :
    ∃ pieces, List.Forall₂ s.Divides word pieces ∧ parts.flatten = pieces.flatten.map .terminal := by
  induction word generalizing parts with
  | nil =>
    cases becomes
    exact ⟨[], .nil, rfl⟩
  | cons terminal word ih =>
    obtain ⟨part, others, here, later, rfl⟩ := List.forall₂_cons_left_iff.mp becomes
    obtain ⟨pieces, divides, flat⟩ := ih later
    cases here with
    | terminal first => exact ⟨_, .cons first divides, by simp [flat]⟩

/-- A sentence of joined devices becomes a sentence of divided ones. -/
theorem exists_divided (legible : s.Legible) {word : List Terminal} (generated : s.joined.draft.Generates word) :
    ∃ parts, List.Forall₂ s.Divides word parts ∧ s.divided.draft.Generates parts.flatten := by
  rw [Draft.Generates, draft_start] at generated
  obtain ⟨_, becomes, derived⟩ := exists_divided_form legible generated
  obtain ⟨parts, divides, flat⟩ := exists_divides becomes
  refine ⟨parts, divides, ?_⟩
  rw [Draft.Generates, draft_start, ← flat]
  exact derived

/-- Where no nonterminal is left every function has come to its word. -/
private theorem exists_word {source : Rhs} {parts : List Rhs} (announces : List.Forall₂ s.Announces source parts) {word : List Terminal}
    (flat : word.map .terminal = parts.flatten) : ∃ origin pieces, source = origin.map .terminal ∧
      List.Forall₂ s.Divides origin pieces ∧ word = pieces.flatten := by
  induction announces generalizing word with
  | nil => exact ⟨[], [], rfl, .nil, by simpa using flat⟩
  | @cons symbol part _ _ here _ ih =>
    rw [List.flatten_cons] at flat
    obtain ⟨first, rest, rfl, front, back⟩ := List.map_eq_append_iff.mp flat
    obtain ⟨origin, pieces, rfl, divides, rfl⟩ := ih back
    have settled : ∀ name, .nonterminal name ∉ part := by
      intro name member
      rw [← front] at member
      simp at member
    cases here with
    | settled becomes =>
      cases becomes with
      | @terminal terminal piece divided =>
        obtain rfl : first = piece := List.map_injective_iff.mpr (fun _ _ => Symbol.terminal.inj) front
        exact ⟨terminal :: origin, first :: pieces, rfl, .cons divided divides, rfl⟩
      | @nonterminal name => exact absurd (List.mem_singleton_self _) (settled name)
    | @pending function => exact absurd (by simp) (settled function.group)

/-- Every sentence of divided devices comes from one of joined devices. -/
theorem exists_joined (legible : s.Legible) {word : List Terminal} (generated : s.divided.draft.Generates word) :
    ∃ source parts, s.joined.draft.Generates source ∧ List.Forall₂ s.Divides source parts ∧ word = parts.flatten := by
  rw [Draft.Generates, draft_start] at generated
  obtain ⟨_, _, derived, announces, flat⟩ := exists_joined_form legible generated
  obtain ⟨source, parts, rfl, divides, rfl⟩ := exists_word announces flat
  refine ⟨source, parts, ?_, divides, rfl⟩
  rw [Draft.Generates, draft_start]
  exact derived

end Schema

end CommandLang
