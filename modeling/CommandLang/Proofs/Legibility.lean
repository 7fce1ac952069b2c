import CommandLang.Proofs.Derivation
import CommandLang.Proofs.Entries
import CommandLang.Proofs.Outcome
import CommandLang.Proofs.Wording
import CommandLang.Schema.CatalogText
import CommandLang.Schema.Language

/-! Catalogs that are read from lines. Their texts are cut out of words, so none has a blank inside, and the name of a
function has no dot, so that the word of a function tells its device. Types keep this when they are read. -/

namespace CommandLang

open Text (unbroken)

structure FunctionDecl.Legible (function : FunctionDecl) : Prop where
  device : unbroken function.device = true
  name : unbroken function.name = true
  undotted : '.' ∉ function.name.toList
  params : ∀ param ∈ function.params, unbroken param.name = true ∧ unbroken param.type = true

structure Catalog.Legible (c : Catalog) : Prop where
  devices : ∀ device ∈ c.devices, unbroken device = true
  functions : ∀ function ∈ c.functions, function.Legible
  enums : ∀ members ∈ c.enums, ∀ member ∈ members, unbroken member = true
  units : ∀ family units, c.units.get? family = some units → unbroken family = true ∧ ∀ unit ∈ units, unbroken unit = true
  entities : ∀ entity ∈ c.entities, unbroken entity.kind = true

namespace Text

variable {α : Type} [DecidableEq α] {mark : α} {text before after : List α}

theorem notMem_of_cutFirst (cut : cutFirst mark text = some (before, after)) : mark ∉ before := by
  induction text generalizing before with
  | nil => cases cut
  | cons a rest ih =>
    by_cases same : a = mark
    · simp only [cutFirst, if_pos same, Option.some.injEq, Prod.mk.injEq] at cut
      simp [← cut.1]
    · simp only [cutFirst, if_neg same, Option.map_eq_some_iff, Prod.mk.injEq, Prod.exists] at cut
      obtain ⟨front, back, inner, rfl, rfl⟩ := cut
      simpa [Ne.symm same] using ih inner

theorem notMem_of_cutLast (cut : cutLast mark text = some (before, after)) : mark ∉ after := by
  simp only [cutLast, Option.map_eq_some_iff, Prod.mk.injEq, Prod.exists] at cut
  obtain ⟨back, front, inner, rfl, rfl⟩ := cut
  simpa using notMem_of_cutFirst inner

end Text

namespace FunctionDecl

theorem legible_param_of_read {word type : String} {param : ParamDecl} (plain : unbroken word = true)
    (typed : unbroken type = true) (read : ParamDecl.read word type = .ok param) :
    unbroken param.name = true ∧ unbroken param.type = true := by
  rw [ParamDecl.read] at read
  split at read
  next => cases read
  next flow name cut =>
    have inside : name ⊆ word.toList := by
      rw [Text.eq_of_cutFirst cut]
      exact fun c member => List.mem_append_right _ (List.mem_cons_of_mem _ member)
    have named := Text.unbroken_ofList (Text.unbroken_iff.mp plain) inside
    split at read
    · exact Except.ok.inj read ▸ ⟨named, typed⟩
    · exact Except.ok.inj read ▸ ⟨named, typed⟩
    · cases read

theorem legible_params_of_read {words : List String} {params : List ParamDecl} (plain : ∀ word ∈ words, unbroken word = true)
    (read : ParamDecl.readAll words = .ok params) :
    ∀ param ∈ params, unbroken param.name = true ∧ unbroken param.type = true := by
  induction words using ParamDecl.readAll.induct generalizing params with
  | case1 word type rest ih =>
    rw [ParamDecl.readAll] at read
    obtain ⟨first, here, read⟩ := bind_eq_ok.mp read
    obtain ⟨others, later, same⟩ := bind_eq_ok.mp read
    obtain ⟨worded, plain⟩ := List.forall_mem_cons.mp plain
    obtain ⟨typed, plain⟩ := List.forall_mem_cons.mp plain
    rw [← Except.ok.inj same]
    exact List.forall_mem_cons.mpr ⟨legible_param_of_read worded typed here, ih plain later⟩
  | case2 words short =>
    rw [ParamDecl.readAll] at read
    · simp [← Except.ok.inj read]
    · exact short

theorem legible_of_read {kind : FunctionKind} {directive : String} {words : List String} {function : FunctionDecl}
    (plain : ∀ word ∈ words, unbroken word = true) (read : FunctionDecl.read kind directive words = .ok function) :
    function.Legible := by
  cases words with
  | nil => cases read
  | cons word params =>
    obtain ⟨worded, plain⟩ := List.forall_mem_cons.mp plain
    rw [FunctionDecl.read] at read
    split at read
    next => cases read
    next device name found =>
      split at read
      next =>
        obtain ⟨declared, known, same⟩ := bind_eq_ok.mp read
        rw [FunctionDecl.readWord] at found
        split at found
        next rest letters =>
          obtain ⟨⟨front, back⟩, cut, texts⟩ := Option.map_eq_some_iff.mp found
          obtain ⟨rfl, rfl⟩ := Prod.mk.inj texts
          have whole := Text.unbroken_iff.mp worded
          rw [letters, Text.eq_of_cutLast cut] at whole
          rw [← Except.ok.inj same]
          refine ⟨Text.unbroken_ofList whole ?_, Text.unbroken_ofList whole ?_, ?_, legible_params_of_read plain known⟩
          · exact fun c member => List.mem_cons_of_mem _ (List.mem_append_left _ member)
          · exact fun c member => List.mem_cons_of_mem _ (List.mem_append_right _ (List.mem_cons_of_mem _ member))
          · rw [String.toList_ofList]
            exact Text.notMem_of_cutLast cut
        next => cases found
      next => cases read

end FunctionDecl

namespace Catalog

variable {c : Catalog}

theorem Legible.addDevice (legible : c.Legible) {device : String} (plain : unbroken device = true) :
    (c.addDevice device).Legible := by
  rw [Catalog.addDevice]
  split
  · exact legible
  · exact { legible with devices := by simpa [or_imp, forall_and, plain] using legible.devices }

theorem Legible.addFunction (legible : c.Legible) {function : FunctionDecl} (plain : function.Legible) :
    (c.addFunction function).Legible := by
  have supplied := legible.addDevice plain.device
  exact { supplied with
    functions := fun other member => (List.mem_append.mp member).elim (supplied.functions other)
      fun last => List.mem_singleton.mp last ▸ plain }

theorem Legible.addEnum (legible : c.Legible) {members : List String} (plain : ∀ member ∈ members, unbroken member = true) :
    (c.addEnum members).Legible :=
  { legible with enums := by simpa [Catalog.addEnum, or_imp, forall_and] using ⟨legible.enums, plain⟩ }

theorem Legible.addEntity (legible : c.Legible) {kind : String} {freeText : Bool} (plain : unbroken kind = true) :
    (c.addEntity kind freeText).Legible :=
  { legible with entities := by simpa [Catalog.addEntity, or_imp, forall_and, plain] using legible.entities }

theorem Legible.setUnits (legible : c.Legible) {family : String} {units : List String} (named : unbroken family = true)
    (plain : ∀ unit ∈ units, unbroken unit = true) : (c.setUnits family units).Legible := by
  refine { legible with units := fun other values found => ?_ }
  rw [Catalog.setUnits, OrderedMap.get?_insert] at found
  split at found
  next same =>
    obtain rfl := Option.some.inj found
    exact ⟨same ▸ named, plain⟩
  next => exact legible.units other values found

theorem Legible.readWords (legible : c.Legible) {words : List String} (plain : ∀ word ∈ words, unbroken word = true)
    {read : Catalog} (found : c.readWords words = .ok read) : read.Legible := by
  unfold Catalog.readWords at found
  split at found
  next => exact Except.ok.inj found ▸ legible
  next directive args =>
    split at found
    next => exact Except.ok.inj found ▸ legible
    next =>
      split at found
      next device _ => exact Except.ok.inj found ▸ legible.addDevice (plain device (by simp))
      next => cases found
      next kind _ => exact Except.ok.inj found ▸ legible.addEntity (plain kind (by simp))
      next kind _ => exact Except.ok.inj found ▸ legible.addEntity (plain kind (by simp))
      next => cases found
      next =>
        have plain := (List.forall_mem_cons.mp plain).2
        exact Except.ok.inj found ▸ legible.setUnits (List.forall_mem_cons.mp plain).1 (List.forall_mem_cons.mp plain).2
      next => cases found
      next => cases found
      next => exact Except.ok.inj found ▸ legible.addEnum (List.forall_mem_cons.mp plain).2
      next =>
        obtain ⟨function, declared, same⟩ := bind_eq_ok.mp found
        exact Except.ok.inj same ▸ legible.addFunction (FunctionDecl.legible_of_read (List.forall_mem_cons.mp plain).2 declared)
      next =>
        obtain ⟨function, declared, same⟩ := bind_eq_ok.mp found
        exact Except.ok.inj same ▸ legible.addFunction (FunctionDecl.legible_of_read (List.forall_mem_cons.mp plain).2 declared)
      next => cases found

theorem Legible.readLines (legible : c.Legible) {number : Nat} {lines : List String} {read : Catalog}
    (found : c.readLines number lines = .ok read) : read.Legible := by
  induction lines generalizing c number with
  | nil => exact Except.ok.inj found ▸ legible
  | cons line rest ih =>
    rw [Catalog.readLines] at found
    split at found
    next here => exact ih (legible.readWords (fun word member => (Text.isWord_of_mem_words member).2) here) found
    next => cases found

theorem legible_of_ofLines {lines : List String} (read : Catalog.ofLines lines = .ok c) : c.Legible := by
  have nothing : Catalog.empty.Legible := by
    constructor <;> simp [Catalog.empty]
  exact nothing.readLines read

end Catalog

namespace ParamType

-- The texts of types, as far as they hold texts of the catalog.
@[simp] theorem unbroken_entity (kind : String) : unbroken (entity kind).text = unbroken kind := by
  have literal : unbroken "Entity(" = true ∧ unbroken ")" = true := by decide
  simp [ParamType.text, literal]

@[simp] theorem unbroken_measure (family : String) : unbroken (measure family).text = unbroken family := by
  have literal : unbroken "Measure(" = true ∧ unbroken ")" = true := by decide
  simp [ParamType.text, literal]

@[simp] theorem unbroken_enumeration (members : List String) : unbroken (enumeration members).text = members.all unbroken := by
  have literal : unbroken "Enum(" = true ∧ unbroken ")" = true ∧ unbroken "," = true := by decide
  simp [ParamType.text, literal, Text.unbroken_intercalate]

@[simp] theorem unbroken_array (element : ParamType) : unbroken (array element).text = unbroken element.text := by
  have literal : unbroken "Array(" = true ∧ unbroken ")" = true := by decide
  simp [ParamType.text, literal]

theorem argument_subset {text constructor argument : List Char} (parts : application text = some (constructor, argument)) :
    argument ⊆ text := by
  obtain ⟨front, strip, cut⟩ := Option.bind_eq_some_iff.mp parts
  rw [Text.eq_of_stripLast strip, Text.eq_of_cutFirst cut]
  exact fun c member => List.mem_append_left _ (List.mem_append_right _ (List.mem_cons_of_mem _ member))

theorem unbroken_of_members {argument : List Char} {known : List String} (whole : ∀ c ∈ argument, Text.isBlank c = false)
    (read : members argument = some known) : known.all unbroken = true := by
  rw [members] at read
  split at read
  next => cases read
  next =>
    rw [← Option.some.inj read, List.all_map, List.all_eq_true]
    intro trimmed member
    obtain ⟨part, split, rfl⟩ := List.mem_map.mp member
    refine Text.unbroken_ofList whole fun c inside => (Text.of_mem_splitOnP split c ?_).1
    have front := (List.dropWhile_sublist _).subset (List.mem_reverse.mp inside)
    exact (List.dropWhile_sublist _).subset (List.mem_reverse.mp front)

theorem unbroken_of_named {text : String} {type : ParamType} (known : (text, type) ∈ named) : unbroken type.text = true := by
  have all : named.all (fun entry => unbroken entry.2.text) = true := by decide +kernel
  exact List.all_eq_true.mp all _ known

theorem unbroken_of_read {text : List Char} {type : ParamType} (whole : ∀ c ∈ text, Text.isBlank c = false)
    (found : read text = some type) : unbroken type.text = true := by
  induction size : text.length using Nat.strongRecOn generalizing text type with
  | ind count ih =>
    unfold read at found
    split at found
    next known => exact unbroken_of_named (Option.some.inj found ▸ mem_of_lookup known)
    next =>
      split at found
      next => cases found
      next constructor argument parts =>
        have inside : ∀ c ∈ argument, Text.isBlank c = false := fun c member => whole c (argument_subset parts member)
        have plain : unbroken (String.ofList argument) = true := Text.unbroken_ofList inside fun _ => id
        repeat' split at found
        · cases found
        · obtain ⟨element, read, rfl⟩ := Option.map_eq_some_iff.mp found
          rw [unbroken_array]
          exact ih _ (size ▸ length_argument_lt parts) inside read rfl
        · rw [← Option.some.inj found, unbroken_entity, plain]
        · rw [← Option.some.inj found, unbroken_measure, plain]
        · obtain ⟨known, read, rfl⟩ := Option.map_eq_some_iff.mp found
          rw [unbroken_enumeration, unbroken_of_members inside read]
        · cases found

end ParamType

/-- A schema without blanks, whose functions are called by their devices and names. -/
structure Schema.Legible (s : Schema) : Prop where
  catalog : s.catalog.Legible
  functions : ∀ function ∈ s.functions, ∃ name, function.word = "@" ++ function.device ++ "." ++ name ∧
    '.' ∉ name.toList ∧ unbroken function.device = true ∧ unbroken name = true
  params : ∀ function ∈ s.functions, ∀ param ∈ function.params, unbroken param.name = true ∧ unbroken param.type.text = true

/-- What a language keeps of the schema that it is compiled from. -/
structure Language.Compiles (language : Language) (s : Schema) : Prop where
  built : s.draft.build = .ok language.grammar
  divided : language.splitDevices = s.splitDevices
  functions : language.functionDevices = .ofList (s.functions.map fun function => (function.word, function.device))

theorem Catalog.read_type_of_typeParam {c : Catalog} {function : FunctionDecl} {declared : ParamDecl} {param : Param}
    (typed : c.typeParam function declared = .ok param) :
    param.name = declared.name ∧ ParamType.read declared.type.toList = some param.type := by
  unfold typeParam at typed
  dsimp only at typed
  split at typed
  next => cases typed
  next type read =>
    split at typed
    next =>
      split at typed
      next =>
        split at typed
        next => exact Except.ok.inj typed ▸ ⟨rfl, read⟩
        next => cases typed
      next => exact Except.ok.inj typed ▸ ⟨rfl, read⟩
    next => cases typed

theorem Catalog.legible_of_typedFunctions {c : Catalog} (legible : c.Legible) {functions : List TypedFunction}
    (typed : c.typedFunctions = .ok functions) (splitDevices : Bool) (valueCount : Nat) :
    (Schema.mk c functions splitDevices valueCount).Legible := by
  obtain ⟨_, _, typed⟩ := bind_eq_ok.mp typed
  have declared : ∀ function ∈ functions, ∃ source ∈ c.functions, ∃ params, source.params.mapM (c.typeParam source) = .ok params ∧
      function = ⟨source.kind, source.device, source.word, params⟩ := by
    intro function member
    obtain ⟨source, inside, typed⟩ := exists_of_mapM_eq_ok typed function member
    obtain ⟨params, known, same⟩ := bind_eq_ok.mp typed
    exact ⟨source, inside, params, known, (Except.ok.inj same).symm⟩
  refine ⟨legible, fun function member => ?_, fun function member param used => ?_⟩
  · obtain ⟨source, inside, params, _, rfl⟩ := declared function member
    obtain ⟨device, name, undotted, _⟩ := legible.functions source inside
    exact ⟨source.name, rfl, undotted, device, name⟩
  · obtain ⟨source, inside, params, known, rfl⟩ := declared function member
    obtain ⟨listed, given, typed⟩ := exists_of_mapM_eq_ok known param used
    obtain ⟨named, read⟩ := read_type_of_typeParam typed
    obtain ⟨plain, whole⟩ := (legible.functions source inside).params listed given
    exact ⟨named ▸ plain, ParamType.unbroken_of_read (Text.unbroken_iff.mp whole) read⟩

/-- The language of a catalog that was read from lines is compiled from a legible schema. -/
theorem Catalog.exists_legible_schema {lines : List String} {c : Catalog} {splitDevices : Bool} {valueCount : Nat}
    {language : Language} (read : Catalog.ofLines lines = .ok c) (compiled : c.language splitDevices valueCount = .ok language) :
    ∃ functions, c.typedFunctions = .ok functions ∧ (Schema.mk c functions splitDevices valueCount).Legible ∧
      language.Compiles ⟨c, functions, splitDevices, valueCount⟩ := by
  rw [Catalog.language] at compiled
  obtain ⟨functions, typed, compiled⟩ := bind_eq_ok.mp compiled
  refine ⟨functions, typed, legible_of_typedFunctions (legible_of_ofLines read) typed _ _, ?_⟩
  dsimp only at compiled
  split at compiled
  next => cases compiled
  next grammar built =>
    obtain rfl := Except.ok.inj compiled
    exact ⟨built, rfl, rfl⟩

namespace Schema

variable {s : Schema} {function other : TypedFunction}

/-- The word of a function tells its device. -/
theorem Legible.device_eq (legible : s.Legible) (member : function ∈ s.functions) (member' : other ∈ s.functions)
    (same : function.word = other.word) : function.device = other.device := by
  obtain ⟨name, word, undotted, _⟩ := legible.functions function member
  obtain ⟨name', word', undotted', _⟩ := legible.functions other member'
  have texts : ('@' :: function.device.toList) ++ '.' :: name.toList = ('@' :: other.device.toList) ++ '.' :: name'.toList := by
    simpa [word, word'] using congrArg String.toList same
  exact String.toList_inj.mp (List.cons.inj (append_cons_inj texts undotted undotted').1).2

/-- The device words of a language are those of the functions, where devices are split off. -/
theorem Legible.deviceWords_iff (legible : s.Legible) {language : Language} (compiles : language.Compiles s) {word device : String} :
    language.deviceWords.get? word = some device ↔
      s.splitDevices = true ∧ ∃ function ∈ s.functions, function.word = word ∧ device = deviceWord true function.device := by
  have known : ∀ source, language.functionDevices.get? word = some source ↔
      ∃ function ∈ s.functions, function.word = word ∧ function.device = source := by
    intro source
    rw [compiles.functions]
    constructor
    · intro found
      simpa using OrderedMap.mem_of_get?_ofList found
    · rintro ⟨function, member, rfl, rfl⟩
      have entry : (function.word, function.device) ∈ s.functions.map fun function => (function.word, function.device) :=
        List.mem_map_of_mem member
      obtain ⟨source, found⟩ := OrderedMap.exists_get?_ofList entry
      have listed := OrderedMap.mem_of_get?_ofList found
      obtain ⟨other, member', same⟩ := List.mem_map.mp listed
      obtain ⟨word, rfl⟩ := Prod.mk.inj same
      rw [found, legible.device_eq member' member word]
  rw [Language.deviceWords, compiles.divided]
  cases divided : s.splitDevices with
  | false => simp
  | true =>
    have marked : ∀ source, language.deviceWord source = deviceWord true source := fun source => by
      rw [Language.deviceWord, compiles.divided, divided]
    simp only [if_true, true_and]
    constructor
    · intro found
      obtain ⟨⟨function, source⟩, member, same⟩ := List.mem_map.mp (OrderedMap.mem_of_get?_ofList found)
      obtain ⟨rfl, rfl⟩ := Prod.mk.inj same
      obtain ⟨function, member, word, device⟩ := (known source).mp (OrderedMap.get?_eq_some_iff.mpr member)
      exact ⟨function, member, word, by rw [marked, device]⟩
    · rintro ⟨function, member, word, rfl⟩
      have entry := OrderedMap.get?_eq_some_iff.mp ((known function.device).mpr ⟨function, member, word, rfl⟩)
      refine OrderedMap.get?_ofList_of_mem ?_ ?_
      · simpa [Function.comp_def] using language.functionDevices.nodup_keys
      · rw [← marked]
        exact List.mem_map_of_mem entry

end Schema

end CommandLang
