import CommandLang.Proofs.Canonicity
import CommandLang.Proofs.Copies
import CommandLang.Proofs.Splitting

/-! Reading back what was read. Vectors that pass the check give a program, and where devices are joined this program can be
written again, whatever is quoted in it but quotation marks: its pieces are told by the leaves of the vectors, and no word
of the language has a blank inside. -/

namespace CommandLang

open Text (unbroken IsWord)

namespace Codec

variable {c : Codec} {g : Grammar} {devices : OrderedMap String String} {v : ActionVectors} {leaves : List Leaf}

/-- The leaves of vectors that pass the check name a sentence of the language. -/
theorem exists_generated_of_leaves (covers : c.Covers g devices) (read : c.leaves v = .ok leaves) :
    ∃ terminals, c.automaton.Names g.toDraft leaves terminals ∧ g.Generates terminals := by
  obtain ⟨⟨slots, written, _⟩, _⟩ := showsFrom_of_leaves covers read
  obtain ⟨fits, forest, tree, whole, _⟩ := slots_eq_ok covers written
  rw [covers.table.grammar] at tree
  obtain ⟨terminals, named⟩ := (Grammar.exists_names_iff covers.table.grammar).mpr fits
  exact ⟨terminals, named, (Grammar.generates_iff_forest covers.table.grammar named).mpr ⟨forest, tree, whole⟩⟩

/-- A quoted text was cut out of the sentence for one of the leaves. -/
def CutFor (sentence : List String) (leaves : List Leaf) (piece : Piece) : Prop :=
  ∀ content, piece = .quote content → ∃ leaf ∈ leaves, ∃ first last, leaf.payload = .span first last ∧ content = slice sentence first last

/-- Quotation marks open and close every class of copied spans. -/
def MarksQuotes (g : Grammar) : Prop :=
  ∀ name declaration, g.copy.get? name = some declaration → declaration.opening = "\"" ∧ declaration.closing = "\""

theorem exists_piece (covers : c.Covers g devices) (marks : MarksQuotes g) {sentence : List String} {leaf : Leaf} {text : List String}
    {terminal : Terminal} (written : c.Writes sentence leaf text) (named : c.automaton.grammar.terminal? leaf.token = some terminal)
    (fits : g.Fits terminal leaf.payload) :
    ∃ piece : Piece, text = piece.words ∧ g.Shows piece terminal ∧ CutFor sentence [leaf] piece := by
  rw [covers.table.grammar] at named
  cases written with
  | @fixed token bare =>
    cases fits with
    | @fixed text =>
      refine ⟨.word text, ?_, .word (.fixed text), by simp [CutFor]⟩
      rw [covers.table.grammar, tokenName_fixed named]
      rfl
  | @value channel place word declared placed =>
    obtain ⟨named', known⟩ := covers.mem_values.mp declared
    obtain rfl := Option.some.inj (named'.symm.trans named)
    exact ⟨.word word, rfl, .word (.classWord (.extensible known) (List.mem_of_getElem? placed)), by simp [CutFor]⟩
  | @copied channel first last declared =>
    obtain ⟨named', declaration, known, opening, closing⟩ := covers.mem_copies.mp declared
    obtain rfl := Option.some.inj (named'.symm.trans named)
    obtain ⟨opens, closes⟩ := marks _ _ known
    refine ⟨.quote (slice sentence first last), ?_, .quote known, ?_⟩
    · rw [← opening, ← closing, opens, closes]
      rfl
    · intro content same
      exact ⟨_, List.mem_singleton_self _, first, last, rfl, (Piece.quote.inj same).symm⟩

/-- The texts of leaves are pieces of a program that show what the leaves name. -/
theorem exists_pieces (covers : c.Covers g devices) (marks : MarksQuotes g) {sentence : List String} {texts : List (List String)}
    {terminals : List Terminal} (written : List.Forall₂ (c.Writes sentence) leaves texts)
    (named : c.automaton.Names g.toDraft leaves terminals) :
    ∃ pieces : List Piece, texts.flatten = pieces.flatMap Piece.words ∧ List.Forall₂ g.Shows pieces terminals ∧
      ∀ piece ∈ pieces, CutFor sentence leaves piece := by
  induction written generalizing terminals with
  | nil =>
    cases named
    exact ⟨[], rfl, .nil, by simp⟩
  | @cons leaf text leaves texts here _ ih =>
    obtain ⟨terminal, others, ⟨token, fits⟩, later, rfl⟩ := List.forall₂_cons_left_iff.mp named
    obtain ⟨piece, same, shows', cut⟩ := exists_piece covers marks here token fits
    obtain ⟨pieces, flat, related, cuts⟩ := ih later
    refine ⟨piece :: pieces, by simp [same, flat], .cons shows' related, List.forall_mem_cons.mpr ⟨?_, fun piece member => ?_⟩⟩
    · intro content quoted
      obtain ⟨source, member, bounds⟩ := cut content quoted
      exact ⟨source, List.mem_cons.mpr (Or.inl (List.mem_singleton.mp member)), bounds⟩
    · intro content quoted
      obtain ⟨source, inside, bounds⟩ := cuts piece member content quoted
      exact ⟨source, List.mem_cons_of_mem _ inside, bounds⟩

/-- Where there are no classes every piece is a word that shows itself. -/
theorem exists_words_of_classless (values : g.extensible = ∅) (spans : g.copy = ∅) {pieces : List Piece} {terminals : List Terminal}
    (related : List.Forall₂ g.Shows pieces terminals) :
    ∃ words : List String, pieces = words.map .word ∧ terminals = words.map .fixed := by
  induction related with
  | nil => exact ⟨[], rfl, rfl⟩
  | cons here _ ih =>
    obtain ⟨words, rfl, rfl⟩ := ih
    cases here with
    | @word text _ stands =>
      obtain rfl := (Grammar.standsFor_iff_of_classless values spans).mp stands
      exact ⟨text :: words, rfl, rfl⟩
    | quote declared =>
      rw [spans] at declared
      cases declared

end Codec

namespace Schema

variable {s : Schema}

theorem isWord_of_mem_placeholders {name word : String} (whole : unbroken name = true) (member : word ∈ s.placeholders name) :
    IsWord word := by
  obtain ⟨i, _, rfl⟩ := List.mem_map.mp member
  have underscore : unbroken "_" = true := by decide
  refine ⟨fun empty => ?_, ?_⟩
  · simpa using congrArg String.toList empty
  · rw [Text.unbroken_append, Text.unbroken_append, whole, underscore, Text.unbroken_toString]
    rfl

theorem isWord_of_plain {text : String} (common : plain text = true) : IsWord text := by
  simp only [plain, Bool.and_eq_true, Bool.not_eq_true', List.isEmpty_eq_false_iff] at common
  exact ⟨fun empty => common.1.1.1.2 (by simp [empty]), common.1.1.1.1⟩

/-- Whatever stands for a terminal of joined devices is one word. -/
theorem isWord_of_standsFor (legible : s.Legible) {joined : Grammar} (built : s.joined.draft.build = .ok joined) {word : String}
    {terminal : Terminal} (stands : joined.StandsFor word terminal) (member : terminal ∈ joined.terminals) : IsWord word := by
  have signs : unbroken "@" = true ∧ unbroken "." = true ∧ unbroken "device:" = true := by decide
  cases stands with
  | fixed =>
    obtain ⟨lhs, rhs, known, used⟩ := Grammar.exists_rule_of_fixed member
    rw [Draft.toDraft_of_build built, hasRule_draft] at known
    cases joinedRule_of_mem legible known with
    | @function function listed =>
      obtain ⟨name, called, _, device, named⟩ := legible.functions function listed
      obtain rfl : word = function.word := by simpa using used
      rw [called]
      refine ⟨fun empty => ?_, by simp [signs, device, named]⟩
      simpa using congrArg String.toList empty
    | @device device whole =>
      obtain rfl : word = deviceWord false device := by simpa using used
      refine ⟨fun empty => ?_, by simp [deviceWord, signs, whole]⟩
      simpa [deviceWord] using congrArg String.toList empty
    | shared neutral =>
      simp only [Clause.neutral_rule, neutralBody, Bool.and_eq_true, List.all_eq_true] at neutral
      exact isWord_of_plain (neutral.1.2.1.2 _ used)
  | classWord declares inside =>
    have whole : unbroken terminal.name = true := by
      cases declares with
      | extensible declared =>
        rw [Draft.toDraft_of_build built, extensible_draft] at declared
        split at declared
        next known => exact unbroken_of_values legible known
        next => cases declared
      | copy declared =>
        obtain ⟨rfl, _⟩ := quotation_of_copy built declared
        decide
    obtain ⟨rfl, _⟩ := declares_placeholders legible.joined.called built declares
    exact isWord_of_mem_placeholders whole inside

end Schema

namespace Codec

variable {c : Codec} {v : ActionVectors} {leaves : List Leaf}

theorem slice_subset (sentence : List String) (first last : Nat) : slice sentence first last ⊆ sentence :=
  fun _ member => List.mem_of_mem_take (List.mem_of_mem_drop member)

/-- Pieces that show a sentence of joined devices are written with words, if what they quote is. -/
theorem isWord_of_shows {s : Schema} (legible : s.Legible) {joined : Grammar} (built : s.joined.draft.build = .ok joined)
    {pieces : List Piece} {terminals : List Terminal} (related : List.Forall₂ joined.Shows pieces terminals)
    (generated : joined.Generates terminals) (plain : ∀ content, .quote content ∈ pieces → ∀ word ∈ content, IsWord word) :
    ∀ word ∈ pieces.flatMap Piece.words, IsWord word := by
  have mark : IsWord "\"" := by decide
  intro word member
  obtain ⟨piece, listed, inside⟩ := List.mem_flatMap.mp member
  cases piece with
  | word text =>
    obtain rfl := List.mem_singleton.mp inside
    obtain ⟨terminal, known, here⟩ := exists_right_of_forall₂ related listed
    exact Schema.isWord_of_standsFor legible built (Draft.shows_word_iff.mp here) (Grammar.mem_terminals_of_generates generated _ known)
  | quote content =>
    simp only [Piece.words, List.cons_append, List.mem_cons, List.mem_append, List.not_mem_nil, or_false] at inside
    rcases inside with rfl | within | rfl
    · exact mark
    · exact plain content listed word within
    · exact mark

/-- Whatever vectors that pass the check are written as, its pieces show a sentence of the language, and quoted texts are
cut out of the sentence. Where classes are spelled out all pieces are words. -/
theorem exists_pieces_of_leaves {s : Schema} {language : Language} (compiles : language.Compiles s)
    (called : ∀ function ∈ s.functions, capital function.word = false) (covers : c.Covers g devices)
    (source : (if c.config.flatten then language.grammar.spellOut else .ok language.grammar) = .ok g) {sentence : List String}
    {texts : List (List String)} (read : c.leaves v = .ok leaves) (written : List.Forall₂ (c.Writes sentence) leaves texts) :
    ∃ pieces terminals, texts.flatten = pieces.flatMap Piece.words ∧ List.Forall₂ language.grammar.Shows pieces terminals ∧
      language.grammar.Generates terminals ∧ (∀ piece ∈ pieces, CutFor sentence leaves piece) ∧
      (c.config.flatten = true → ∃ words : List String, pieces = words.map .word) := by
  obtain ⟨terminals, named, generated⟩ := exists_generated_of_leaves covers read
  split at source
  next flat =>
    obtain ⟨_, values, spans, _⟩ := Grammar.spellOut_eq_ok source
    have marks : MarksQuotes g := fun _ _ declared => by rw [spans] at declared; cases declared
    obtain ⟨pieces, same, related, cuts⟩ := exists_pieces covers marks written named
    obtain ⟨words, rfl, rfl⟩ := exists_words_of_classless values spans related
    obtain ⟨others, stands, origin⟩ :=
      (Grammar.spellOut_generates_iff (Schema.classesApart called compiles.built) source words).mp generated
    exact ⟨_, others, same, List.forall₂_map_left_iff.mpr (stands.imp fun _ _ => .word), origin, cuts, fun _ => ⟨words, rfl⟩⟩
  next plain =>
    obtain rfl : language.grammar = g := Except.ok.inj source
    have marks : MarksQuotes language.grammar := fun _ _ declared => by
      obtain ⟨_, rfl⟩ := Schema.quotation_of_copy compiles.built declared
      exact ⟨rfl, rfl⟩
    obtain ⟨pieces, same, related, cuts⟩ := exists_pieces covers marks written named
    exact ⟨pieces, terminals, same, related, generated, cuts, fun flat => absurd flat plain⟩

/-- Where devices are joined the program of vectors that pass the check can be written again, unless a quotation mark was
cut out of the sentence. -/
theorem exists_encode_decoded {lines : List String} {catalog : Catalog} {valueCount : Nat} {language : Language} {config : CodecConfig}
    (read : Catalog.ofLines lines = .ok catalog) (compiled : catalog.language false valueCount = .ok language)
    (assembled : ofLanguage language config = .ok c) {sentence : List String} (plain : ∀ word ∈ sentence, IsWord word)
    (passed : c.verify v = .ok ()) (unmarked : ∀ leaves, c.leaves v = .ok leaves → ∀ leaf ∈ leaves, ∀ first last,
      leaf.payload = .span first last → "\"" ∉ slice sentence first last) :
    ∃ program, c.decode (some sentence) v = .ok program ∧ ∃ w, c.encode sentence (programText program) = .ok w := by
  obtain ⟨functions, _, legible, origin⟩ := Catalog.exists_legible_schema read compiled
  have compiles : language.Compiles (Schema.mk catalog functions false valueCount).joined := origin
  obtain ⟨g, covers, rfl, _, source⟩ := covers_of_ofLanguage assembled
  obtain ⟨leaves, found, _⟩ := map_eq_ok.mp passed
  obtain ⟨texts, written, decoded⟩ := decode_of_leaves covers sentence found
  obtain ⟨pieces, terminals, same, related, generated, cuts, single⟩ :=
    exists_pieces_of_leaves compiles legible.joined.called covers source found written
  have joined := Language.deviceWords_joined compiles.divided
  rw [joined, withoutDevices_empty] at decoded
  have words : ∀ word ∈ pieces.flatMap Piece.words, IsWord word := by
    refine isWord_of_shows legible compiles.built related generated fun content member word inside => ?_
    obtain ⟨_, _, first, last, _, rfl⟩ := cuts _ member content rfl
    exact plain word (slice_subset sentence first last inside)
  have reads : Piece.read (!c.config.flatten) none (pieces.flatMap Piece.words) = some pieces := by
    cases flat : c.config.flatten with
    | true =>
      obtain ⟨texts, rfl⟩ := single flat
      simpa [List.flatMap_map, Piece.words] using Piece.read_unquoting texts
    | false =>
      refine Piece.read_words ?_ ?_
      · rintro _ member rfl
        rw [Draft.toDraft_of_build compiles.built] at related generated
        exact Schema.not_shows_mark legible compiles.built related (Schema.unmarked_of_generates legible generated) member
      · intro content member
        obtain ⟨leaf, listed, first, last, span, rfl⟩ := cuts _ member content rfl
        exact unmarked leaves found leaf listed first last span
  refine ⟨_, decoded, (exists_encode_iff_shows compiled assembled sentence _).mpr ⟨pieces, terminals, ?_, ?_, generated⟩⟩
  · rw [same, words_programText words, reads]
  · rwa [joined, completedPieces_empty]

/-- An answer that quotes one word of the sentence. -/
def wordVectors (place : UInt32) : ActionVectors where
  actions := [3, 5, 18, 1]
  values := ∅
  spans := .ofList [("QUOTED_STRING", ⟨[0, 0, place, 0], [0, 0, place, 0]⟩)]
  length := 4
  truncated := false

private theorem exists_quoting : ∃ catalog language c, Catalog.ofLines [] = .ok catalog ∧ catalog.language false 1 = .ok language ∧
    ofLanguage language linearConfig = .ok c ∧ c.leaves (wordVectors 2) = .ok [⟨3, .none⟩, ⟨5, .none⟩, ⟨18, .span 1 1⟩] ∧
    c.leaves (wordVectors 1) = .ok [⟨3, .none⟩, ⟨5, .none⟩, ⟨18, .span 0 0⟩] ∧
    c.decode (some ["\"", "a"]) (wordVectors 1) = .ok (["bookkeeping", "answer", "\"", "\"", "\""].map .word) ∧
    ∀ w, c.encode ["\"", "a"] "bookkeeping answer \" \" \"" ≠ .ok w := by
  have checked : (ofLines? [] false 1 linearConfig).map (fun c =>
      ((c.leaves (wordVectors 2)).toOption, (c.leaves (wordVectors 1)).toOption,
        (c.decode (some ["\"", "a"]) (wordVectors 1)).toOption,
        (c.encode ["\"", "a"] "bookkeeping answer \" \" \"").toOption)) =
      some (some [⟨3, .none⟩, ⟨5, .none⟩, ⟨18, .span 1 1⟩], some [⟨3, .none⟩, ⟨5, .none⟩, ⟨18, .span 0 0⟩],
        some (["bookkeeping", "answer", "\"", "\"", "\""].map .word), none) := by decide +kernel
  obtain ⟨c, found, checked⟩ := Option.map_eq_some_iff.mp checked
  simp only [Prod.mk.injEq] at checked
  obtain ⟨read, read', decoded, failed⟩ := checked
  obtain ⟨catalog, language, lines, compiled, assembled⟩ := exists_language_of_lines found
  refine ⟨catalog, language, c, lines, compiled, assembled, Grammar.eq_ok_of_toOption read, Grammar.eq_ok_of_toOption read',
    Grammar.eq_ok_of_toOption decoded, fun w encoded => ?_⟩
  rw [encoded] at failed
  cases failed

theorem exists_encode_decoded_answer : ∃ catalog language c, Catalog.ofLines [] = .ok catalog ∧
    catalog.language false 1 = .ok language ∧ ofLanguage language linearConfig = .ok c ∧ c.verify (wordVectors 2) = .ok () ∧
    ∃ program, c.decode (some ["\"", "a"]) (wordVectors 2) = .ok program ∧
      ∃ w, c.encode ["\"", "a"] (programText program) = .ok w := by
  obtain ⟨catalog, language, c, lines, compiled, assembled, read, _⟩ := exists_quoting
  have passed : c.verify (wordVectors 2) = .ok () := map_eq_ok.mpr ⟨_, read, rfl⟩
  have plain : ∀ word ∈ ["\"", "a"], IsWord word := by decide
  refine ⟨catalog, language, c, lines, compiled, assembled, passed,
    exists_encode_decoded lines compiled assembled plain passed fun leaves found leaf member first last span => ?_⟩
  obtain rfl := Except.ok.inj (read.symm.trans found)
  simp only [List.mem_cons, List.not_mem_nil, or_false] at member
  rcases member with rfl | rfl | rfl
  · cases span
  · cases span
  · obtain ⟨rfl, rfl⟩ := Payload.span.inj span
    decide

/-- A quotation mark that is quoted ends the quotation when it is read. -/
theorem decoded_unreadable : ∃ catalog language c program, Catalog.ofLines [] = .ok catalog ∧
    catalog.language false 1 = .ok language ∧ ofLanguage language linearConfig = .ok c ∧ (∀ word ∈ ["\"", "a"], IsWord word) ∧
    c.verify (wordVectors 1) = .ok () ∧ c.decode (some ["\"", "a"]) (wordVectors 1) = .ok program ∧
    ∀ w, c.encode ["\"", "a"] (programText program) ≠ .ok w := by
  obtain ⟨catalog, language, c, lines, compiled, assembled, _, read, decoded, failed⟩ := exists_quoting
  have text : programText (["bookkeeping", "answer", "\"", "\"", "\""].map .word) = "bookkeeping answer \" \" \"" := by decide
  exact ⟨catalog, language, c, _, lines, compiled, assembled, by decide, map_eq_ok.mpr ⟨_, read, rfl⟩, decoded, text ▸ failed⟩

end Codec

end CommandLang
