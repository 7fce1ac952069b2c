import CommandLang.Proofs.Acceptance
import CommandLang.Proofs.Clauses

/-! Flat codecs and plain ones. The words of a language tell its classes apart, so whether classes are spelled out makes
no difference to the programs that can be written, unless these quote a text word by word. -/

namespace CommandLang

theorem Catalog.exists_schema {catalog : Catalog} {splitDevices : Bool} {valueCount : Nat} {language : Language}
    (compiled : catalog.language splitDevices valueCount = .ok language) :
    ∃ s : Schema, s.draft.build = .ok language.grammar ∧ ∀ function ∈ s.functions, capital function.word = false := by
  rw [Catalog.language] at compiled
  obtain ⟨functions, typed, compiled⟩ := bind_eq_ok.mp compiled
  refine ⟨⟨catalog, functions, splitDevices, valueCount⟩, ?_, ?_⟩
  · dsimp only at compiled
    split at compiled
    next => cases compiled
    next grammar built => exact built.trans (congrArg (fun language => Except.ok (Language.grammar language)) (Except.ok.inj compiled))
  · obtain ⟨_, _, typed⟩ := bind_eq_ok.mp typed
    intro function member
    obtain ⟨declared, _, typed⟩ := exists_of_mapM_eq_ok typed function member
    obtain ⟨_, _, same⟩ := bind_eq_ok.mp typed
    rw [← Except.ok.inj same]
    simp [FunctionDecl.word, capital]

theorem Language.capital_deviceWords {language : Language} {word device : String}
    (asked : language.deviceWords.get? word = some device) : capital device = false := by
  rw [deviceWords] at asked
  split at asked
  · obtain ⟨_, _, same⟩ := List.mem_map.mp (OrderedMap.mem_of_get?_ofList asked)
    rw [← (Prod.mk.inj same).2]
    exact capital_deviceWord _ _
  · cases asked

namespace Grammar

variable {g : Grammar}

theorem standsFor_iff_of_classless (values : g.extensible = ∅) (spans : g.copy = ∅) {word : String} {terminal : Terminal} :
    g.StandsFor word terminal ↔ terminal = .fixed word := by
  constructor
  · intro stands
    cases stands with
    | fixed => rfl
    | classWord declares =>
      cases declares with
      | extensible declared => rw [values] at declared; cases declared
      | copy declared => rw [spans] at declared; cases declared
  · rintro rfl
    exact .fixed word

theorem forall₂_standsFor_iff_of_classless (values : g.extensible = ∅) (spans : g.copy = ∅) {words : List String}
    {terminals : List Terminal} : List.Forall₂ g.StandsFor words terminals ↔ terminals = words.map .fixed := by
  constructor
  · intro related
    induction related with
    | nil => rfl
    | cons here _ ih => rw [(standsFor_iff_of_classless values spans).mp here, ih, List.map_cons]
  · rintro rfl
    exact List.forall₂_map_right_iff.mpr (List.forall₂_same.mpr fun word _ => .fixed word)

end Grammar

theorem Vocabulary.lookup_openings_eq_none {d : Draft} {n : Numbered} {devices : OrderedMap String String} {word : String}
    (unopened : ∀ name declaration, d.copy.get? name = some declaration → declaration.opening ≠ word) :
    (ofGrammar d n devices).openings.lookup word = none := by
  cases found : (ofGrammar d n devices).openings.lookup word with
  | none => rfl
  | some entry =>
    obtain ⟨declaration, known, opening, _⟩ := of_openings found
    obtain ⟨name, _, declared⟩ := Draft.copyClass?_eq_some_iff.mp known
    exact absurd opening (unopened name declaration declared)

namespace Codec

section

variable {c : Codec} {g : Grammar} {devices : OrderedMap String String} {program : String}

/-- A codec without classes writes the programs whose words are a sequence of the language. -/
theorem exists_encode_iff_of_classless (covers : c.Covers g devices) (wide : 2 ≤ c.config.maxInputLength)
    (values : g.extensible = ∅) (spans : g.copy = ∅) (sentence : List String) :
    (∃ v, c.encode sentence program = .ok v) ↔ g.Generates ((completed devices none (Text.words program)).map .fixed) := by
  have stands {word terminal} := @Grammar.standsFor_iff_of_classless g values spans word terminal
  have clear : g.Unmistakable := fun word terminal other _ _ left right => (stands.mp left).trans (stands.mp right).symm
  have fixed : g.FixesDevices devices := fun _ _ _ _ => stands.mp
  have unopened : ∀ word ∈ Text.words program, c.vocabulary.openings.lookup word = none := by
    intro word _
    rw [covers.vocabulary]
    apply Vocabulary.lookup_openings_eq_none
    rw [spans]
    intro name declaration declared
    cases declared
  rw [exists_encode_iff covers wide clear fixed sentence unopened]
  simp only [Grammar.forall₂_standsFor_iff_of_classless values spans, exists_eq_left]

/-- A codec over the grammar of a schema writes the programs without quotation marks whose words stand for a sequence of
the language. -/
theorem exists_encode_iff_of_schema {s : Schema} (built : s.draft.build = .ok g)
    (called : ∀ function ∈ s.functions, capital function.word = false) (covers : c.Covers g devices)
    (wide : 2 ≤ c.config.maxInputLength) (small : ∀ word device, devices.get? word = some device → capital device = false)
    (sentence : List String) (unquoted : "\"" ∉ Text.words program) :
    (∃ v, c.encode sentence program = .ok v) ↔ ∃ terminals,
      List.Forall₂ g.StandsFor (completed devices none (Text.words program)) terminals ∧ g.Generates terminals := by
  have fixed : g.FixesDevices devices := fun word device asked _ =>
    Schema.eq_fixed_of_standsFor called built (small word device asked)
  have unopened : ∀ word ∈ Text.words program, c.vocabulary.openings.lookup word = none := by
    intro word member
    rw [covers.vocabulary]
    apply Vocabulary.lookup_openings_eq_none
    intro name declaration declared opening
    obtain ⟨_, rfl⟩ := Schema.quotation_of_copy built declared
    rw [← opening] at member
    exact unquoted member
  exact exists_encode_iff covers wide (Schema.unmistakable called built) fixed sentence unopened

end

/-- Two codecs of a catalog's language that differ in spelling out classes alone can write the same programs, apart from
programs with quotation marks: those whose words, with the devices that are missing, stand for a sequence of the
language. -/
theorem encodes_flat_iff_plain {catalog : Catalog} {splitDevices : Bool} {valueCount : Nat} {language : Language}
    (compiled : catalog.language splitDevices valueCount = .ok language) {config : CodecConfig} {plain flat : Codec}
    (assembled : ofLanguage language { config with flatten := false } = .ok plain)
    (assembled' : ofLanguage language { config with flatten := true } = .ok flat)
    (sentence : List String) (program : String) (unquoted : "\"" ∉ Text.words program) :
    ((∃ v, flat.encode sentence program = .ok v) ↔ ∃ v, plain.encode sentence program = .ok v) ∧
    ((∃ v, plain.encode sentence program = .ok v) ↔ ∃ terminals,
      List.Forall₂ language.grammar.StandsFor (completed language.deviceWords none (Text.words program)) terminals ∧
        language.grammar.Generates terminals) := by
  obtain ⟨s, built, called⟩ := Catalog.exists_schema compiled
  obtain ⟨g, covers, configured, sound, source⟩ := covers_of_ofLanguage assembled
  obtain ⟨f, covers', configured', sound', spelled⟩ := covers_of_ofLanguage assembled'
  obtain rfl : language.grammar = g := Except.ok.inj source
  change language.grammar.spellOut = .ok f at spelled
  obtain ⟨_, values, spans, _⟩ := Grammar.spellOut_eq_ok spelled
  have wide : 2 ≤ plain.config.maxInputLength := by
    rw [configured]
    exact two_le_of_sound sound
  have wide' : 2 ≤ flat.config.maxInputLength := by
    rw [configured']
    exact two_le_of_sound sound'
  have meant := exists_encode_iff_of_schema built called covers wide (fun _ _ => Language.capital_deviceWords) sentence unquoted
  refine ⟨?_, meant⟩
  rw [meant, exists_encode_iff_of_classless covers' wide' values spans]
  exact Grammar.spellOut_generates_iff (Schema.classesApart called built) spelled _

theorem encodes_flat_iff_plain_answer : ∃ language plain flat, Catalog.empty.language true 1 = .ok language ∧
    ofLanguage language { errandConfig with flatten := false } = .ok plain ∧
    ofLanguage language { errandConfig with flatten := true } = .ok flat ∧
    (∃ v, flat.encode [] "bookkeeping answer QUOTED_STRING_0" = .ok v) ∧
    ∃ v, plain.encode [] "bookkeeping answer QUOTED_STRING_0" = .ok v := by
  have checked : (Catalog.empty.language true 1).toOption.map (fun language =>
      ((ofLanguage language { errandConfig with flatten := false }).toOption.isSome,
        (ofLanguage language { errandConfig with flatten := true }).toOption.map fun flat =>
          (flat.encode [] "bookkeeping answer QUOTED_STRING_0").toOption.isSome)) = some (true, some true) := by decide +kernel
  obtain ⟨language, compiled, checked⟩ := Option.map_eq_some_iff.mp checked
  obtain ⟨built, checked⟩ := Prod.mk.inj checked
  obtain ⟨flat, assembled', written⟩ := Option.map_eq_some_iff.mp checked
  obtain ⟨plain, assembled⟩ := Option.isSome_iff_exists.mp built
  obtain ⟨v, encoded⟩ := Option.isSome_iff_exists.mp written
  have compiled := Grammar.eq_ok_of_toOption compiled
  have assembled := Grammar.eq_ok_of_toOption assembled
  have assembled' := Grammar.eq_ok_of_toOption assembled'
  have encodes : ∃ v, flat.encode [] "bookkeeping answer QUOTED_STRING_0" = .ok v := ⟨v, Grammar.eq_ok_of_toOption encoded⟩
  exact ⟨language, plain, flat, compiled, assembled, assembled', encodes,
    (encodes_flat_iff_plain compiled assembled assembled' [] _ (by decide +kernel)).1.mp encodes⟩

end Codec

end CommandLang
