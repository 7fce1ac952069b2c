import CommandLang.Proofs.Copies
import CommandLang.Proofs.RoundTrip
import CommandLang.Proofs.Splitting

/-! Programs without spans where devices are divided. What comes back from the vectors of a program is the program without
the devices directly before their functions, and that is read as the same terms: between the devices and functions of a
sentence there is room enough to tell where a device was left out. -/

namespace CommandLang

namespace Vocabulary

theorem exists_words_of_open {v : Vocabulary} {span : OpenSpan} {last : Option Nat} {words : List String} {terms : List Term}
    (read : v.termsFrom (some span) last words = .ok terms) : ∃ term ∈ terms, ∃ content, term.value = .words content := by
  induction words generalizing span with
  | nil => cases read
  | cons word rest ih =>
    rw [termsFrom] at read
    split at read
    next =>
      obtain ⟨later, _, same⟩ := bind_eq_ok.mp read
      exact ⟨_, Except.ok.inj same ▸ List.mem_cons_self .., _, rfl⟩
    next => exact ih read

theorem unopened_of_spanless {v : Vocabulary} {last : Option Nat} {words : List String} {terms : List Term}
    (read : v.termsFrom none last words = .ok terms) (spanless : ∀ term ∈ terms, ∀ content, term.value ≠ .words content) :
    ∀ word ∈ words, v.openings.lookup word = none := by
  induction words generalizing last terms with
  | nil => simp
  | cons word rest ih =>
    rw [termsFrom] at read
    split at read
    next =>
      obtain ⟨term, member, content, spanned⟩ := exists_words_of_open read
      exact absurd spanned (spanless term member content)
    next unopened =>
      obtain ⟨supplied, _, read⟩ := bind_eq_ok.mp read
      obtain ⟨term, _, read⟩ := bind_eq_ok.mp read
      obtain ⟨later, behind, same⟩ := bind_eq_ok.mp read
      obtain rfl := Except.ok.inj same
      refine List.forall_mem_cons.mpr ⟨unopened, ih behind fun term member => spanless term ?_⟩
      exact List.mem_append_right _ (List.mem_cons_of_mem _ member)

variable {g : Grammar} {devices : OrderedMap String String}

theorem spells_word {word : String} {term : Term} (read : (ofGrammar g.toDraft g.number devices).classify word = .ok term)
    (spanless : ∀ content, term.value ≠ .words content) : g.Spells g.number term [word] := by
  have spells := spells_of_classify read
  have alone : enclosed (g.copyClass? g.number) term word = [word] := by
    rw [enclosed]
    split
    next content _ valued _ => exact absurd valued (spanless content)
    next => rfl
  rwa [alone] at spells

end Vocabulary

namespace Schema

variable {s : Schema} (legible : s.Legible) {language : Language} (compiles : language.Compiles s.divided)

include legible compiles

/-- Where devices are divided the words of devices and functions are signed. -/
theorem Legible.signs (function device : String) (asked : language.deviceWords.get? function = some device) :
    signed function = true ∧ signed device = true := by
  obtain ⟨_, function, known, rfl, rfl⟩ := (legible.divided.deviceWords_iff compiles).mp asked
  exact ⟨legible.signed_word known, by simp [signed, deviceWord]⟩

/-- No three words in a row are devices or functions in words that stand for a sentence of divided devices. -/
theorem sparse_of_standsFor {words : List String} {word : List Terminal} (stands : List.Forall₂ language.grammar.StandsFor words word)
    (generated : language.grammar.Generates word) : Sparse (signed · = true) words := by
  rw [Draft.toDraft_of_build compiles.built] at generated
  obtain ⟨source, parts, origin, divides, rfl⟩ := exists_joined legible generated
  refine (sparse_of_divides legible divides (isChain_of_generates legible origin)).of_forall₂ stands ?_
  intro text terminal stands sign
  exact ⟨text, eq_fixed_of_standsFor legible.divided.called compiles.built (capital_of_signed sign) stands, sign⟩

end Schema

namespace Codec

variable {c : Codec} {language : Language} {config : CodecConfig} {program : String} {terms : List Term}

/-- Devices are told by their words alone, whether classes are spelled out or not. -/
theorem fixesDevices_of_source {s : Schema} (built : s.draft.build = .ok language.grammar)
    (called : ∀ function ∈ s.functions, capital function.word = false) {g : Grammar}
    (source : (if config.flatten then language.grammar.spellOut else .ok language.grammar) = .ok g) :
    g.FixesDevices language.deviceWords := by
  intro word device asked terminal stands
  split at source
  next =>
    obtain ⟨_, values, spans, _⟩ := Grammar.spellOut_eq_ok source
    exact (Grammar.standsFor_iff_of_classless values spans).mp stands
  next =>
    obtain rfl := Except.ok.inj source
    exact Schema.eq_fixed_of_standsFor called built (Language.capital_deviceWords asked) stands

/-- The words of a program without spans, with the devices that are missing, stand for a sentence of the language. -/
theorem exists_stands_of_encode {catalog : Catalog} {splitDevices : Bool} {valueCount : Nat}
    (compiled : catalog.language splitDevices valueCount = .ok language) (assembled : ofLanguage language config = .ok c)
    {sentence : List String} {v : ActionVectors} (encoded : c.encode sentence program = .ok v)
    (unopened : ∀ word ∈ Text.words program, c.vocabulary.openings.lookup word = none) :
    ∃ terminals, List.Forall₂ language.grammar.StandsFor (completed language.deviceWords none (Text.words program)) terminals ∧
      language.grammar.Generates terminals := by
  obtain ⟨s, built, called⟩ := Catalog.exists_schema compiled
  obtain ⟨pieces, terminals, read, shows', generated⟩ := (exists_encode_iff_shows compiled assembled sentence program).mp ⟨v, encoded⟩
  refine ⟨terminals, ?_, generated⟩
  have plainly : Piece.read (!config.flatten) none (Text.words program) = some ((Text.words program).map .word) := by
    cases flat : config.flatten with
    | true => exact Piece.read_unquoting _
    | false =>
      refine Piece.read_unmarked _ fun member => ?_
      obtain ⟨g, covers, _, _, source⟩ := covers_of_ofLanguage assembled
      rw [flat] at source
      obtain rfl : language.grammar = g := Except.ok.inj source
      obtain ⟨token, marked, _⟩ := @Vocabulary.lookup_mark s language.grammar language.deviceWords built
      rw [← covers.vocabulary, unopened _ member] at marked
      cases marked
  obtain rfl := Option.some.inj (plainly.symm.trans read)
  rw [completedPieces_words, List.forall₂_map_left_iff] at shows'
  exact shows'.imp fun _ _ => Draft.shows_word_iff.mp

/-- The leaves of terms without spans are spelled as the words that the terms were read from. -/
private theorem spell_words {g : Grammar} {devices : OrderedMap String String} (covers : c.Covers g devices)
    (vocabularies : ∀ channel ∈ c.values, channel.vocabulary.length ≤ 2 ^ 32) {words : List String}
    (classified : List.Forall₂ (fun word term => c.vocabulary.classify word = .ok term) words terms)
    (spanless : ∀ term ∈ terms, ∀ content, term.value ≠ .words content) (sentence : List String) (input : Option (List String)) :
    (∀ leaf ∈ terms.map (c.leaf sentence), c.Holds leaf) ∧
      List.Forall₂ (fun leaf text => ∀ position, c.spell input position leaf = .ok (text.map .word))
        ((terms.map (c.leaf sentence)).map Leaf.zeroBased) (words.map ([·])) := by
  induction classified with
  | nil => exact ⟨by simp, .nil⟩
  | cons first _ ih =>
    obtain ⟨here, others⟩ := List.forall_mem_cons.mp spanless
    obtain ⟨holds, rest⟩ := ih others
    rw [covers.vocabulary] at first
    have ⟨hold, spelled⟩ := @spell_spanless c g devices sentence covers vocabularies _ _ (Vocabulary.spells_word first here) here
    exact ⟨List.forall_mem_cons.mpr ⟨hold, holds⟩, .cons (spelled input) rest⟩

theorem leaf_of_spanless {term : Term} (spanless : ∀ content, term.value ≠ .words content) (sentence other : List String) :
    c.leaf sentence term = c.leaf other term := by
  obtain ⟨token, value⟩ := term
  cases value with
  | words content => exact absurd rfl (spanless content)
  | _ => rfl

/-- Where devices are divided a program without spans comes back without the devices that stand directly before their
functions, and without other changes, whatever the sentence. What comes back is written as the same vectors. Actions and
places in vocabularies are words of 32 bits, so there may not be more of either than these tell. -/
theorem decode_encode_divided {lines : List String} {catalog : Catalog} {valueCount : Nat}
    (read : Catalog.ofLines lines = .ok catalog) (compiled : catalog.language true valueCount = .ok language)
    (assembled : ofLanguage language config = .ok c) (actions : c.actionCount ≤ 2 ^ 32)
    (vocabularies : ∀ channel ∈ c.values, channel.vocabulary.length ≤ 2 ^ 32) {sentence : List String} {v : ActionVectors}
    (parsed : c.vocabulary.terms program = .ok terms) (spanless : ∀ term ∈ terms, ∀ content, term.value ≠ .words content)
    (encoded : c.encode sentence program = .ok v) (whole : v.truncated = false) :
    (∀ input, c.decode input v = .ok ((withoutDevices language.deviceWords (Text.words program)).map .word)) ∧
    ∀ other, c.encode other (programText ((withoutDevices language.deviceWords (Text.words program)).map .word)) = .ok v := by
  obtain ⟨functions, _, legible, origin⟩ := Catalog.exists_legible_schema read compiled
  have compiles : language.Compiles (Schema.mk catalog functions true valueCount).divided := origin
  obtain ⟨g, covers, rfl, _, source⟩ := covers_of_ofLanguage assembled
  have fixed := fixesDevices_of_source compiles.built legible.divided.called source
  have signs := legible.signs compiles
  have unopened := Vocabulary.unopened_of_spanless parsed spanless
  obtain ⟨terminals, stands, generated⟩ := exists_stands_of_encode compiled assembled encoded unopened
  have sparse := Schema.sparse_of_standsFor legible compiles stands generated
  have classified : List.Forall₂ (fun word term => c.vocabulary.classify word = .ok term)
      (completed language.deviceWords none (Text.words program)) terms := by
    rw [covers.vocabulary] at parsed unopened ⊢
    exact (Vocabulary.termsFrom_eq_ok_iff fixed unopened .start).mp parsed
  constructor
  · intro input
    obtain ⟨slots, written, rfl⟩ := encode_eq_ok parsed encoded whole
    obtain ⟨holds, spelled⟩ := spell_words covers vocabularies classified spanless sentence input
    have decoded := decode_of_spelled (leaves_layOut covers actions holds written) spelled
    rwa [covers.vocabulary_devices, flatten_singles, withoutDevices_completed signs sparse] at decoded
  · intro other
    have inside := withoutDevices_sublist language.deviceWords (Text.words program)
    have words := words_programText fun word member => Text.isWord_of_mem_words (inside.subset member)
    have again : c.vocabulary.terms (programText ((withoutDevices language.deviceWords (Text.words program)).map .word)) = .ok terms := by
      rw [Vocabulary.terms, words]
      have same : completed language.deviceWords none (withoutDevices language.deviceWords (Text.words program)) =
        completed language.deviceWords none (Text.words program) := completed_withoutDevices signs sparse
      rw [← same] at classified
      rw [covers.vocabulary] at unopened classified ⊢
      exact (Vocabulary.termsFrom_eq_ok_iff fixed (fun word member => unopened word (inside.subset member)) .start).mpr classified
    have leaves : terms.map (c.leaf other) = terms.map (c.leaf sentence) :=
      List.map_congr_left fun term member => leaf_of_spanless (spanless term member) other sentence
    rw [← encoded, encode, encode, again, parsed]
    simp only [Except.mapError, bind, Except.bind, leaves]

theorem decode_encode_divided_now : ∃ catalog language c v, Catalog.ofLines ["action @b.say"] = .ok catalog ∧
    catalog.language true 1 = .ok language ∧ ofLanguage language linearConfig = .ok c ∧ c.encode [] "now => @@b @b.say" = .ok v ∧
    (∀ input, c.decode input v = .ok (["now", "=>", "@b.say"].map .word)) ∧
    ∀ other, c.encode other (programText (["now", "=>", "@b.say"].map .word)) = .ok v := by
  have checked : (ofLines? ["action @b.say"] true 1 linearConfig).map (fun c =>
      (decide (c.actionCount ≤ 2 ^ 32 ∧ ∀ channel ∈ c.values, channel.vocabulary.length ≤ 2 ^ 32),
        withoutDevices c.vocabulary.devices (Text.words "now => @@b @b.say"),
        (c.vocabulary.terms "now => @@b @b.say").toOption,
        (c.encode [] "now => @@b @b.say").toOption.map ActionVectors.truncated)) =
      some (true, ["now", "=>", "@b.say"], some [⟨11, .none⟩, ⟨10, .none⟩, ⟨18, .none⟩, ⟨19, .none⟩], some false) := by
    decide +kernel
  obtain ⟨c, found, checked⟩ := Option.map_eq_some_iff.mp checked
  simp only [Prod.mk.injEq, decide_eq_true_eq] at checked
  obtain ⟨⟨actions, vocabularies⟩, short, parsed, written⟩ := checked
  obtain ⟨catalog, language, read, compiled, assembled⟩ := exists_language_of_lines found
  obtain ⟨v, encoded, whole⟩ := Option.map_eq_some_iff.mp written
  have encoded := Grammar.eq_ok_of_toOption encoded
  obtain ⟨_, covers, _⟩ := covers_of_ofLanguage assembled
  have back := decode_encode_divided read compiled assembled actions vocabularies (Grammar.eq_ok_of_toOption parsed)
    (by simp) encoded whole
  rw [← covers.vocabulary_devices, short] at back
  exact ⟨catalog, language, c, v, read, compiled, assembled, encoded, back⟩

end Codec

end CommandLang
