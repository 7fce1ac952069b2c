import CommandLang.Proofs.Pattern
import CommandLang.Proofs.Productions

/-! Which sort of the pattern the symbols of a schema belong to. Nonterminals are sorted by their names, words by their
texts, and where a text does not tell, by the parameter or function that is spelled so. -/

namespace CommandLang

/-- Looks a text up as a whole, and if it is not listed, by how it begins. -/
def sortText {α : Type} (whole marks : List (String × α)) (text : String) : Option α :=
  (whole.lookup text).or ((marks.find? fun entry => entry.1.toList.isPrefixOf text.toList).map Prod.snd)

/-- Whether a mark tells how texts that begin with it are sorted: none of them is listed, and no other mark decides. -/
def marksAs {α : Type} [DecidableEq α] (whole marks : List (String × α)) (mark : String) (sort : Option α) : Bool :=
  (whole.all fun entry => !mark.toList.isPrefixOf entry.1.toList) &&
    (marks.all fun entry => !agree entry.1.toList mark.toList || entry.1.toList.isPrefixOf mark.toList) &&
    (marks.find? fun entry => entry.1.toList.isPrefixOf mark.toList).map Prod.snd = sort

theorem sortText_of_marksAs {α : Type} [DecidableEq α] {whole marks : List (String × α)} {mark text : String}
    {sort : Option α} (begins : mark.toList <+: text.toList) (told : marksAs whole marks mark sort = true) :
    sortText whole marks text = sort := by
  simp only [marksAs, Bool.and_eq_true, List.all_eq_true, Bool.or_eq_true, Bool.not_eq_true', decide_eq_true_eq] at told
  obtain ⟨⟨absent, short⟩, found⟩ := told
  have unlisted : whole.lookup text = none := by
    refine List.lookup_eq_none_iff.mpr fun entry listed => bne_iff_ne.mpr ?_
    rintro rfl
    exact Bool.false_ne_true ((absent entry listed).symm.trans (List.isPrefixOf_iff_prefix.mpr begins))
  have alike : ∀ entry ∈ marks, entry.1.toList.isPrefixOf text.toList = entry.1.toList.isPrefixOf mark.toList := by
    intro entry listed
    rw [Bool.eq_iff_iff, List.isPrefixOf_iff_prefix, List.isPrefixOf_iff_prefix]
    refine ⟨fun within => ?_, fun within => within.trans begins⟩
    rcases short entry listed with apart | inside
    · exact absurd (agree_of_begins within begins) (Bool.eq_false_iff.mp apart)
    · exact List.isPrefixOf_iff_prefix.mp inside
  rw [sortText, unlisted, Option.none_or, ← List.head?_filter, List.filter_congr alike, List.head?_filter, found]

namespace Pattern

/-- Nonterminals that do not depend on the catalog. -/
def commonNames : List (String × Part) :=
  [("$input", .input), ("$rule", .rule), ("$special", .special), ("$stream", .stream), ("$action", .action), ("$table", .table),
    ("$get_query", .getQuery), ("$query_function", .queryFunction), ("$call", .call), ("$action_function", .actionFunction),
    ("$const_param", .constParam), ("$param_passing", .passing), ("$out_param_Any", .anyOutput), ("$filter", .filter),
    ("$or_filter", .orFilter), ("$atom_filter", .atomFilter), ("$constant_Any", .anyConstant)]

def typeNames : List (String × Part) :=
  [("$constant_String", .string), ("$constant_Number", .number), ("$constant_Boolean", .boolean), ("$constant_Date", .date),
    ("$constant_Time", .simple), ("$constant_Currency", .simple), ("$constant_Location", .simple),
    ("$out_param_String", .textOutput)]

def nameMarks : List (String × Part) :=
  [("$queries_", .queries), ("$actions_", .actions), ("$constant_Entity(", .entity), ("$constant_Measure(", .quantity),
    ("$constant_Enum(", .enumeration), ("$constant_Array(", .list), ("$out_param_Array(Array(", .listsOutput),
    ("$out_param_Array(", .listOutput), ("$out_param_", .output)]

def ofName (name : String) : Part := (sortText (commonNames ++ typeNames) nameMarks name).getD .accept

def ofConstant : ParamType → Part
  | .string => .string
  | .number => .number
  | .boolean => .boolean
  | .date => .date
  | .time | .currency | .location => .simple
  | .entity _ => .entity
  | .measure _ => .quantity
  | .enumeration _ => .enumeration
  | .array _ => .list

def ofOutput : ParamType → Part
  | .string => .textOutput
  | .array (.array _) => .listsOutput
  | .array _ => .listOutput
  | _ => .output

def ofParam : ParamType → Role
  | .string => .textParam
  | .array (.array _) => .listsParam
  | .array _ => .listParam
  | _ => .param

def ofGroup : FunctionKind → Part
  | .query => .queries
  | .action => .actions

def commonWords : List (String × Role) :=
  [("bookkeeping", .bookkeeping), ("special", .special), ("answer", .answer), ("=>", .arrow), ("now", .now), ("notify", .notify),
    ("return", .giveBack), ("monitor", .monitor), ("(", .opening), (")", .closing), ("attimer", .attimer), ("time", .time),
    ("=", .equals), ("timer", .timer), ("base", .base), (",", .comma), ("interval", .interval), ("event", .event), ("[", .left),
    ("]", .right), ("contains", .contains), ("in_range", .inRange), ("in_array", .inArray), ("and", .and), ("or", .or),
    ("not", .not), ("edge", .edge), ("on", .on), ("filter", .filter), ("true", .truth), ("false", .truth),
    ("start_of", .dateEdge), ("end_of", .dateEdge), ("+", .sign), ("-", .sign), ("==", .operator), ("=~", .operator),
    (">=", .operator), ("<=", .operator)]

def wordMarks : List (String × Role) :=
  [("special:", .specialAnswer), ("location:", .place), ("unit:", .unit), ("enum:", .member), ("^^", .mark)]

def classRoles : List (String × Role) :=
  [("NUMBER", .numberValue), ("DATE", .dateValue), ("DURATION", .durationValue), ("TIME", .simpleValue), ("CURRENCY", .simpleValue),
    ("LOCATION", .simpleValue)]

def ownRole (s : Schema) (text : String) : Role :=
  match s.params.find? (·.word = text) with
  | some param => ofParam param.type
  | none =>
    if s.functions.any fun function => function.kind = .query ∧ function.word = text then .query
    else if s.functions.any fun function => function.kind = .action ∧ function.word = text then .action
    else .device

def ofTerminal (s : Schema) : Terminal → Role
  | .fixed text => (sortText commonWords wordMarks text).getD (ownRole s text)
  | .extensible name => (classRoles.lookup name).getD .entityValue
  | .copy _ => .quote

def tellingMarks : List (String × Part) :=
  [("$queries_", .queries), ("$actions_", .actions), ("$constant_Entity(", .entity), ("$constant_Measure(", .quantity),
    ("$constant_Enum(", .enumeration), ("$constant_Array(", .list), ("$out_param_Entity(", .output),
    ("$out_param_Measure(", .output), ("$out_param_Enum(", .output), ("$out_param_Array(Array(", .listsOutput),
    ("$out_param_Array(Entity(", .listOutput), ("$out_param_Array(Measure(", .listOutput),
    ("$out_param_Array(Enum(", .listOutput)]

/-- The types whose texts stand for themselves. -/
def plainTypes : List ParamType := [.string, .number, .boolean, .date, .time, .currency, .location]

-- One check of all names and one of all words, since the texts in them are evaluated only once this way.
private theorem names_sorted : (∀ entry ∈ commonNames, ofName entry.1 = entry.2) ∧
    (∀ entry ∈ tellingMarks, marksAs (commonNames ++ typeNames) nameMarks entry.1 (some entry.2) = true) ∧
    ∀ type ∈ plainTypes, ofName type.constantName = ofConstant type ∧ ofName type.outputName = ofOutput type ∧
      ofName (ParamType.array type).outputName = ofOutput (.array type) := by decide +kernel

private theorem words_sorted : (commonWords.map Prod.fst).Nodup ∧
    (∀ entry ∈ wordMarks, marksAs commonWords wordMarks entry.1 (some entry.2) = true) ∧
    ∀ mark ∈ ["@", "device:", "param:"], marksAs commonWords wordMarks mark none = true := by decide +kernel

variable {s : Schema} {type : ParamType}

theorem ofName_of_mem {name : String} {sort : Part} (known : (name, sort) ∈ commonNames) : ofName name = sort :=
  names_sorted.1 _ known

@[simp] theorem ofName_startName : ofName Schema.startName = .input := ofName_of_mem (by simp [commonNames, Schema.startName])

@[simp] theorem ofName_queryFunction : ofName "$query_function" = .queryFunction := ofName_of_mem (by simp [commonNames])

@[simp] theorem ofName_actionFunction : ofName "$action_function" = .actionFunction := ofName_of_mem (by simp [commonNames])

@[simp] theorem ofName_anyOutput : ofName "$out_param_Any" = .anyOutput := ofName_of_mem (by simp [commonNames])

@[simp] theorem ofName_getQuery : ofName "$get_query" = .getQuery := ofName_of_mem (by simp [commonNames])

@[simp] theorem ofName_call : ofName "$call" = .call := ofName_of_mem (by simp [commonNames])

@[simp] theorem ofName_constParam : ofName "$const_param" = .constParam := ofName_of_mem (by simp [commonNames])

@[simp] theorem ofName_passing : ofName "$param_passing" = .passing := ofName_of_mem (by simp [commonNames])

@[simp] theorem ofName_atomFilter : ofName "$atom_filter" = .atomFilter := ofName_of_mem (by simp [commonNames])

@[simp] theorem ofName_anyConstant : ofName "$constant_Any" = .anyConstant := ofName_of_mem (by simp [commonNames])

theorem ofName_of_mark {mark name : String} {sort : Part} (known : (mark, sort) ∈ tellingMarks)
    (begins : mark.toList <+: name.toList) : ofName name = sort := by
  have told := names_sorted.2.1 _ known
  dsimp only at told
  rw [ofName, sortText_of_marksAs begins told, Option.getD_some]

@[simp] theorem ofName_constantName (type : ParamType) : ofName type.constantName = ofConstant type := by
  have sorted : ∀ (mark : String) (sort : Part), (mark, sort) ∈ tellingMarks →
      mark.toList <+: "$constant_".toList ++ type.text.toList → ofName type.constantName = sort := by
    intro mark sort known begins
    exact ofName_of_mark known (by rwa [ParamType.constantName, String.toList_append])
  cases type with
  | entity => exact sorted "$constant_Entity(" .entity (by simp [tellingMarks]) (by simp [ParamType.text])
  | measure => exact sorted "$constant_Measure(" .quantity (by simp [tellingMarks]) (by simp [ParamType.text])
  | enumeration => exact sorted "$constant_Enum(" .enumeration (by simp [tellingMarks]) (by simp [ParamType.text])
  | array => exact sorted "$constant_Array(" .list (by simp [tellingMarks]) (by simp [ParamType.text])
  | _ => exact (names_sorted.2.2 _ (by simp [plainTypes])).1

@[simp] theorem ofName_outputName (type : ParamType) : ofName type.outputName = ofOutput type := by
  have sorted : ∀ (mark : String) (sort : Part), (mark, sort) ∈ tellingMarks →
      mark.toList <+: "$out_param_".toList ++ type.text.toList → ofName type.outputName = sort := by
    intro mark sort known begins
    exact ofName_of_mark known (by rwa [ParamType.outputName, String.toList_append])
  cases type with
  | entity => exact sorted "$out_param_Entity(" .output (by simp [tellingMarks]) (by simp [ParamType.text])
  | measure => exact sorted "$out_param_Measure(" .output (by simp [tellingMarks]) (by simp [ParamType.text])
  | enumeration => exact sorted "$out_param_Enum(" .output (by simp [tellingMarks]) (by simp [ParamType.text])
  | array element =>
    cases element with
    | array => exact sorted "$out_param_Array(Array(" .listsOutput (by simp [tellingMarks]) (by simp [ParamType.text])
    | entity => exact sorted "$out_param_Array(Entity(" .listOutput (by simp [tellingMarks]) (by simp [ParamType.text])
    | measure => exact sorted "$out_param_Array(Measure(" .listOutput (by simp [tellingMarks]) (by simp [ParamType.text])
    | enumeration => exact sorted "$out_param_Array(Enum(" .listOutput (by simp [tellingMarks]) (by simp [ParamType.text])
    | _ => exact (names_sorted.2.2 _ (by simp [plainTypes])).2.2
  | _ => exact (names_sorted.2.2 _ (by simp [plainTypes])).2.1

@[simp] theorem ofName_group (kind : FunctionKind) (device : String) :
    ofName ((Schema.functionNames kind).2 ++ device) = ofGroup kind := by
  have known : ((Schema.functionNames kind).2, ofGroup kind) ∈ tellingMarks := by
    cases kind <;> simp [tellingMarks, ofGroup, Schema.functionNames]
  exact ofName_of_mark known (by simp)

theorem ofTerminal_of_mem {text : String} {role : Role} (known : (text, role) ∈ commonWords) :
    ofTerminal s (.fixed text) = role := by
  rw [ofTerminal, sortText, (lookup_eq_some_iff_mem words_sorted.1).mpr known, Option.some_or, Option.getD_some]

theorem ofTerminal_of_mark {mark : String} {role : Role} (known : (mark, role) ∈ wordMarks) (rest : String) :
    ofTerminal s (.fixed (mark ++ rest)) = role := by
  have told := words_sorted.2.1 _ known
  dsimp only at told
  have begins : mark.toList <+: (mark ++ rest).toList := by simp
  rw [ofTerminal, sortText_of_marksAs begins told, Option.getD_some]

/-- Words that begin like functions, devices or parameters do so alone. -/
theorem ofTerminal_eq_ownRole {mark text : String} (known : mark ∈ ["@", "device:", "param:"])
    (begins : mark.toList <+: text.toList) : ofTerminal s (.fixed text) = ownRole s text := by
  rw [ofTerminal, sortText_of_marksAs begins (words_sorted.2.2 _ known), Option.getD_none]

end Pattern

end CommandLang
