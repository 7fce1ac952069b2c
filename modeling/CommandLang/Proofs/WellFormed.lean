import CommandLang.Proofs.Legibility
import Mathlib.Data.List.DropRight

/-! When all parameters of a catalog have types. Every family has units, no unit belongs to two families or comes twice,
and the type of every parameter can be read and has values. -/

namespace CommandLang

section

variable {ε α β : Type} {f : α → Except ε β} {items : List α}

theorem exists_mapM_eq_ok_iff : (∃ values, items.mapM f = .ok values) ↔ ∀ item ∈ items, ∃ value, f item = .ok value := by
  induction items with
  | nil => exact ⟨fun _ _ member => (List.not_mem_nil member).elim, fun _ => ⟨[], rfl⟩⟩
  | cons item rest ih =>
    rw [List.forall_mem_cons, ← ih, List.mapM_cons]
    constructor
    · intro ⟨values, mapped⟩
      obtain ⟨first, here, mapped⟩ := bind_eq_ok.mp mapped
      obtain ⟨others, later, _⟩ := bind_eq_ok.mp mapped
      exact ⟨⟨first, here⟩, others, later⟩
    · intro ⟨⟨first, here⟩, others, later⟩
      exact ⟨first :: others, bind_eq_ok.mpr ⟨first, here, bind_eq_ok.mpr ⟨others, later, rfl⟩⟩⟩

theorem exists_of_mapM_eq_error {fault : ε} (mapped : items.mapM f = .error fault) : ∃ item ∈ items, f item = .error fault := by
  induction items with
  | nil => cases mapped
  | cons item rest ih =>
    rw [List.mapM_cons] at mapped
    rcases bind_eq_error.mp mapped with here | ⟨first, _, mapped⟩
    · exact ⟨item, List.mem_cons_self .., here⟩
    · rcases bind_eq_error.mp mapped with later | ⟨others, _, same⟩
      · obtain ⟨source, inside, failed⟩ := ih later
        exact ⟨source, List.mem_cons_of_mem _ inside, failed⟩
      · cases same

end

theorem Text.trim_trim (text : List Char) : trim (trim text) = trim text := by
  have ends : ∀ text, trim text = (text.dropWhile isBlank).rdropWhile isBlank := fun _ => rfl
  have first : ((text.dropWhile isBlank).rdropWhile isBlank).dropWhile isBlank = (text.dropWhile isBlank).rdropWhile isBlank := by
    rw [List.dropWhile_eq_self_iff]
    intro some
    have front := List.rdropWhile_prefix isBlank (text.dropWhile isBlank)
    have letter := List.dropWhile_eq_self_iff.mp (List.dropWhile_idempotent isBlank text) (Nat.lt_of_lt_of_le some front.length_le)
    rwa [front.getElem some]
  rw [ends, ends, first, List.rdropWhile_idempotent]

namespace ParamType

/-- What is said of the texts inside a type that is read. None is empty, and there are enum members, without commas and
without blanks around them. -/
def Proper : ParamType → Prop
  | entity kind => kind ≠ ""
  | measure family => family ≠ ""
  | enumeration members => members ≠ [] ∧
    ∀ member ∈ members, member ≠ "" ∧ ',' ∉ member.toList ∧ Text.trim member.toList = member.toList
  | array element => element.Proper
  | _ => True

theorem proper_of_named {text : String} {type : ParamType} (known : (text, type) ∈ named) : type.Proper := by
  have all : ∀ entry ∈ named, entry.2.Proper := by simp [named, Proper]
  exact all _ known

theorem proper_of_members {argument : List Char} {known : List String} (read : members argument = some known) :
    (enumeration known).Proper := by
  rw [members] at read
  split at read
  next => cases read
  next some =>
    obtain rfl := Option.some.inj read
    refine ⟨by simp, fun member listed => ?_⟩
    obtain ⟨trimmed, inside, rfl⟩ := List.mem_map.mp listed
    have nonempty : trimmed ≠ [] := fun nothing => some (List.any_eq_true.mpr ⟨_, inside, by simp [nothing]⟩)
    obtain ⟨part, split, rfl⟩ := List.mem_map.mp inside
    rw [String.toList_ofList]
    refine ⟨by simpa [← String.toList_inj] using nonempty, fun comma => ?_, Text.trim_trim part⟩
    rw [Text.trim] at comma
    have front := (List.dropWhile_sublist _).subset (List.mem_reverse.mp comma)
    have whole := (List.dropWhile_sublist _).subset (List.mem_reverse.mp front)
    simpa using (Text.of_mem_splitOnP split _ whole).2

theorem proper_of_read {text : List Char} {type : ParamType} (found : read text = some type) : type.Proper := by
  induction size : text.length using Nat.strongRecOn generalizing text type with
  | ind count ih =>
    unfold read at found
    split at found
    next known => exact proper_of_named (Option.some.inj found ▸ mem_of_lookup known)
    next =>
      split at found
      next => cases found
      next constructor argument parts =>
        repeat' split at found
        · cases found
        · obtain ⟨element, read, rfl⟩ := Option.map_eq_some_iff.mp found
          have inner : element.Proper := ih _ (size ▸ length_argument_lt parts) read rfl
          exact inner
        · obtain rfl := Option.some.inj found
          simpa [Proper, ← String.toList_inj] using ‹¬ argument.isEmpty = true›
        · obtain rfl := Option.some.inj found
          simpa [Proper, ← String.toList_inj] using ‹¬ argument.isEmpty = true›
        · obtain ⟨known, read, rfl⟩ := Option.map_eq_some_iff.mp found
          exact proper_of_members read
        · cases found

theorem Proper.element {type : ParamType} (proper : type.Proper) : type.element.Proper := by
  induction type with
  | array inner ih => exact ih proper
  | _ => exact proper

end ParamType

namespace Catalog

variable {c : Catalog}

/-- Values of a type are known: the kind of its entities, or the units of its quantities. -/
structure Knows (c : Catalog) (type : ParamType) : Prop where
  kind : ∀ kind, type.element = .entity kind →
    kind = deviceEntity ∨ kind ∈ wellKnownEntities.map Prod.fst ∨ kind ∈ c.entities.map (·.kind)
  family : ∀ family, type.element = .measure family → family ∈ c.units.keys

structure WellFormed (c : Catalog) : Prop where
  measured : ∀ units ∈ c.units.values, units ≠ []
  distinct : c.units.values.flatten.Nodup
  typed : ∀ function ∈ c.functions, ∀ param ∈ function.params, ∃ type,
    ParamType.read param.type.toList = some type ∧ c.Knows type

/-- Catalogs that are put together from declarations. -/
inductive Built : Catalog → Prop where
  | empty : Built empty
  | addDevice {c : Catalog} (built : Built c) (device : String) : Built (c.addDevice device)
  | addFunction {c : Catalog} (built : Built c) (function : FunctionDecl) : Built (c.addFunction function)
  | addEnum {c : Catalog} (built : Built c) (members : List String) : Built (c.addEnum members)
  | setUnits {c : Catalog} (built : Built c) (family : String) (units : List String) : Built (c.setUnits family units)
  | addEntity {c : Catalog} (built : Built c) (kind : String) (freeText : Bool) : Built (c.addEntity kind freeText)

theorem subset_devices_addDevice (device : String) : device ∈ (c.addDevice device).devices ∧ c.devices ⊆ (c.addDevice device).devices := by
  rw [addDevice]
  split
  next known => exact ⟨known, List.Subset.refl _⟩
  next => exact ⟨by simp, List.subset_append_left _ _⟩

theorem functions_addDevice (device : String) : (c.addDevice device).functions = c.functions := by
  rw [addDevice]
  split <;> rfl

theorem Built.device_mem (built : c.Built) : ∀ function ∈ c.functions, function.device ∈ c.devices := by
  induction built with
  | empty => exact fun _ member => (List.not_mem_nil member).elim
  | addDevice _ device ih =>
    intro function member
    rw [functions_addDevice] at member
    exact (subset_devices_addDevice device).2 (ih function member)
  | @addFunction c _ added ih =>
    have kept := @subset_devices_addDevice c added.device
    intro function member
    rcases List.mem_append.mp member with old | new
    · rw [functions_addDevice] at old
      exact kept.2 (ih function old)
    · rw [List.mem_singleton.mp new]
      exact kept.1
  | addEnum _ _ ih => exact ih
  | setUnits _ _ _ ih => exact ih
  | addEntity _ _ _ ih => exact ih

theorem Built.readWords (built : c.Built) {words : List String} {read : Catalog} (found : c.readWords words = .ok read) :
    read.Built := by
  unfold Catalog.readWords at found
  split at found
  next => exact Except.ok.inj found ▸ built
  next =>
    split at found
    next => exact Except.ok.inj found ▸ built
    next =>
      split at found
      next => exact Except.ok.inj found ▸ built.addDevice _
      next => cases found
      next => exact Except.ok.inj found ▸ built.addEntity _ _
      next => exact Except.ok.inj found ▸ built.addEntity _ _
      next => cases found
      next => exact Except.ok.inj found ▸ built.setUnits _ _
      next => cases found
      next => cases found
      next => exact Except.ok.inj found ▸ built.addEnum _
      next =>
        obtain ⟨function, _, same⟩ := bind_eq_ok.mp found
        exact Except.ok.inj same ▸ built.addFunction function
      next =>
        obtain ⟨function, _, same⟩ := bind_eq_ok.mp found
        exact Except.ok.inj same ▸ built.addFunction function
      next => cases found

theorem Built.readLines (built : c.Built) {number : Nat} {lines : List String} {read : Catalog}
    (found : c.readLines number lines = .ok read) : read.Built := by
  induction lines generalizing c number with
  | nil => exact Except.ok.inj found ▸ built
  | cons line rest ih =>
    rw [Catalog.readLines] at found
    split at found
    next here => exact ih (built.readWords here) found
    next => cases found

theorem built_of_ofLines {lines : List String} (read : Catalog.ofLines lines = .ok c) : c.Built := Built.empty.readLines read

theorem noteUnits_eq_ok {family : String} {seen noted : List (String × String)} {units : List String} :
    noteUnits family seen units = .ok noted ↔
      (units.Nodup ∧ ∀ unit ∈ units, unit ∉ seen.map Prod.fst) ∧ noted = (units.map (·, family)).reverse ++ seen := by
  induction units generalizing seen with
  | nil => simp [noteUnits, eq_comm]
  | cons unit rest ih =>
    rw [noteUnits, List.nodup_cons, List.forall_mem_cons]
    split
    next first known =>
      have listed : unit ∈ seen.map Prod.fst := List.mem_map_of_mem (mem_of_lookup known)
      constructor
      · intro failed
        cases failed
      · intro ⟨⟨_, fresh, _⟩, _⟩
        exact absurd listed fresh
    next unknown =>
      have fresh : unit ∉ seen.map Prod.fst := by
        intro listed
        obtain ⟨entry, member, rfl⟩ := List.mem_map.mp listed
        simpa using List.lookup_eq_none_iff.mp unknown _ member
      rw [ih]
      simp only [List.map_cons, List.mem_cons, List.reverse_cons, List.append_assoc, List.singleton_append]
      grind

theorem checkUnits_eq_ok {seen : List (String × String)} {families : List (String × List String)} :
    checkUnits seen families = .ok () ↔ (∀ units ∈ families.map Prod.snd, units ≠ []) ∧
      (families.map Prod.snd).flatten.Nodup ∧ ∀ unit ∈ (families.map Prod.snd).flatten, unit ∉ seen.map Prod.fst := by
  induction families generalizing seen with
  | nil => simp [checkUnits]
  | cons entry rest ih =>
    obtain ⟨family, units⟩ := entry
    have noted : ((units.map (·, family)).reverse ++ seen).map Prod.fst = units.reverse ++ seen.map Prod.fst := by
      simp [Function.comp_def]
    rw [checkUnits]
    split
    next nothing => simpa using fun some => absurd (List.isEmpty_iff.mp nothing) some
    next some =>
      have inhabited : units ≠ [] := by simpa using some
      simp only [bind_eq_ok, noteUnits_eq_ok, and_assoc, exists_and_left, exists_eq_left, ih, noted, List.map_cons, List.flatten_cons,
        List.nodup_append, List.forall_mem_cons, List.mem_append, List.mem_reverse]
      grind

theorem checkUnits_entries : checkUnits [] c.units.entries = .ok () ↔
    (∀ units ∈ c.units.values, units ≠ []) ∧ c.units.values.flatten.Nodup := by
  rw [checkUnits_eq_ok, List.map_nil]
  exact and_congr_right fun _ => and_iff_left_of_imp fun _ _ _ => List.not_mem_nil

theorem knowsEntity_iff {kind : String} : c.knowsEntity kind = true ↔
    kind = deviceEntity ∨ kind ∈ wellKnownEntities.map Prod.fst ∨ kind ∈ c.entities.map (·.kind) := by
  simp [knowsEntity, or_assoc]

theorem knows_iff {type : ParamType} : c.Knows type ↔
    c.knowsType type = true ∧ ∀ family, type.element = .measure family → c.units.contains family = true := by
  have kinds : c.knowsType type = true ↔ ∀ kind, type.element = .entity kind → c.knowsEntity kind = true := by
    rw [knowsType]
    split
    next kind same => simp [same]
    next other => exact ⟨fun _ kind same => absurd same (other kind), fun _ => rfl⟩
  rw [kinds]
  simp only [knowsEntity_iff, OrderedMap.contains_iff]
  constructor
  · intro knows
    exact ⟨knows.kind, knows.family⟩
  · intro known
    exact ⟨known.1, known.2⟩

theorem typeParam_eq_ok {function : FunctionDecl} {declared : ParamDecl} {param : Param} :
    c.typeParam function declared = .ok param ↔ ∃ type, ParamType.read declared.type.toList = some type ∧ c.Knows type ∧
      ⟨declared.name, type, declared.flow⟩ = param := by
  unfold typeParam
  dsimp only
  split
  next unread => simp [unread]
  next type read =>
    simp only [read, Option.some.injEq, exists_eq_left', knows_iff]
    split
    next known =>
      simp only [known, true_and]
      split
      next family same =>
        split
        next declares => simp [same, declares]
        next undeclared => simp [same, undeclared]
      next other =>
        have unmeasured : ∀ family, type.element = .measure family → c.units.contains family = true :=
          fun family same => absurd same (other family)
        simp only [Except.ok.injEq]
        exact (and_iff_right unmeasured).symm
    next unknown => simp [unknown]

theorem typeParam_ne_grammar {function : FunctionDecl} {declared : ParamDecl} {fault : GrammarError} :
    c.typeParam function declared ≠ .error (.grammar fault) := by
  unfold typeParam
  dsimp only
  repeat' split
  all_goals (intro same; cases same)

theorem checkUnits_ne_grammar {seen : List (String × String)} {families : List (String × List String)} {fault : GrammarError} :
    checkUnits seen families ≠ .error (.grammar fault) := by
  have noted : ∀ family seen units, noteUnits family seen units ≠ .error (.grammar fault) := by
    intro family seen units
    induction units generalizing seen with
    | nil =>
      intro same
      cases same
    | cons unit rest ih =>
      rw [noteUnits]
      split
      next =>
        intro same
        cases same
      next => exact ih _
  induction families generalizing seen with
  | nil =>
    intro same
    cases same
  | cons entry rest ih =>
    rw [checkUnits]
    split
    next =>
      intro same
      cases same
    next =>
      intro failed
      rcases bind_eq_error.mp failed with here | ⟨_, _, later⟩
      · exact noted _ _ _ here
      · exact ih later

/-- All functions of a catalog can be typed just if the catalog is well-formed. -/
theorem exists_typedFunctions_iff : (∃ functions, c.typedFunctions = .ok functions) ↔ c.WellFormed := by
  have each : ∀ function declared, (∃ param, c.typeParam function declared = .ok param) ↔
      ∃ type, ParamType.read declared.type.toList = some type ∧ c.Knows type := by
    intro function declared
    simp only [typeParam_eq_ok]
    exact ⟨fun ⟨_, type, read, known, _⟩ => ⟨type, read, known⟩, fun ⟨type, read, known⟩ => ⟨_, type, read, known, rfl⟩⟩
  simp only [typedFunctions, bind_eq_ok]
  rw [exists_comm]
  simp only [exists_and_left, exists_mapM_eq_ok_iff]
  constructor
  · intro ⟨_, units, typed⟩
    obtain ⟨measured, distinct⟩ := checkUnits_entries.mp units
    refine ⟨measured, distinct, fun function member => ?_⟩
    obtain ⟨_, found⟩ := typed function member
    obtain ⟨params, mapped, _⟩ := bind_eq_ok.mp found
    exact fun param inside => (each function param).mp (exists_mapM_eq_ok_iff.mp ⟨params, mapped⟩ param inside)
  · intro ⟨measured, distinct, typed⟩
    refine ⟨(), checkUnits_entries.mpr ⟨measured, distinct⟩, fun function member => ?_⟩
    obtain ⟨params, mapped⟩ := exists_mapM_eq_ok_iff.mpr fun param inside =>
      (each function param).mpr (typed function member param inside)
    exact ⟨_, bind_eq_ok.mpr ⟨params, mapped, rfl⟩⟩

theorem exists_declaration_of_typedFunctions {functions : List TypedFunction} (typed : c.typedFunctions = .ok functions) :
    ∀ function ∈ functions, ∃ source ∈ c.functions, function.kind = source.kind ∧ function.device = source.device ∧
      function.word = source.word ∧ ∀ param ∈ function.params, ∃ declared ∈ source.params, c.typeParam source declared = .ok param := by
  obtain ⟨_, _, typed⟩ := bind_eq_ok.mp typed
  intro function member
  obtain ⟨source, inside, found⟩ := exists_of_mapM_eq_ok typed function member
  obtain ⟨params, mapped, same⟩ := bind_eq_ok.mp found
  obtain rfl := Except.ok.inj same
  exact ⟨source, inside, rfl, rfl, rfl, exists_of_mapM_eq_ok mapped⟩

theorem typedFunctions_ne_grammar {fault : GrammarError} : c.typedFunctions ≠ .error (.grammar fault) := by
  intro failed
  rcases bind_eq_error.mp failed with here | ⟨_, _, later⟩
  · exact checkUnits_ne_grammar here
  · obtain ⟨function, _, failed⟩ := exists_of_mapM_eq_error later
    rcases bind_eq_error.mp failed with inner | ⟨_, _, same⟩
    · obtain ⟨param, _, failed⟩ := exists_of_mapM_eq_error inner
      exact typeParam_ne_grammar failed
    · cases same

end Catalog

end CommandLang
