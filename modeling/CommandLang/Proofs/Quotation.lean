import CommandLang.Proofs.Flattening

/-! Programs that quote. A quotation mark takes all words up to the next one with it, so a program is read as single
words and quoted texts. Whatever a program quotes, it can be written if its words, with the devices that are missing,
and its quoted texts stand for a sequence of the language. -/

namespace CommandLang

/-- A word of a program, or a text that the program quotes. -/
inductive Piece where
  | word (text : String)
  | quote (content : List String)
deriving DecidableEq, Repr

namespace Piece

def words : Piece → List String
  | word text => [text]
  | quote content => "\"" :: content ++ ["\""]

/-- The pieces of a program. Where nothing is quoted, a quotation mark is a word like any other; `content` are the words
behind a mark that is still open. -/
def read (quotes : Bool) : (content : Option (List String)) → List String → Option (List Piece)
  | none, [] => some []
  | some _, [] => none
  | some content, text :: rest =>
    if text = "\"" then (read quotes none rest).map (quote content :: ·)
    else read quotes (some (content ++ [text])) rest
  | none, text :: rest =>
    if quotes = true ∧ text = "\"" then read quotes (some []) rest
    else (read quotes none rest).map (word text :: ·)

theorem read_unquoting (words : List String) : read false none words = some (words.map word) := by
  induction words with
  | nil => rfl
  | cons text rest ih => simp [read, ih]

theorem read_unmarked (quotes : Bool) {words : List String} (unmarked : "\"" ∉ words) :
    read quotes none words = some (words.map word) := by
  induction words with
  | nil => rfl
  | cons text rest ih =>
    rw [List.mem_cons, not_or] at unmarked
    simp [read, Ne.symm unmarked.1, ih unmarked.2]

private theorem read_content (quotes : Bool) {content rest : List String} (unquoted : "\"" ∉ content) (before : List String) :
    read quotes (some before) (content ++ "\"" :: rest) = (read quotes none rest).map (quote (before ++ content) :: ·) := by
  induction content generalizing before with
  | nil => simp [read]
  | cons text content ih =>
    rw [List.mem_cons, not_or] at unquoted
    rw [List.cons_append, read, if_neg (Ne.symm unquoted.1), ih unquoted.2, List.append_assoc]
    rfl

theorem read_words {pieces : List Piece} (single : ∀ text, word text ∈ pieces → text ≠ "\"")
    (unquoted : ∀ content, quote content ∈ pieces → "\"" ∉ content) :
    read true none (pieces.flatMap words) = some pieces := by
  induction pieces with
  | nil => rfl
  | cons piece pieces ih =>
    have later := ih (fun text member => single text (List.mem_cons_of_mem _ member))
      (fun content member => unquoted content (List.mem_cons_of_mem _ member))
    rw [List.flatMap_cons]
    cases piece with
    | word text =>
      have apart := single text (List.mem_cons_self ..)
      simp [words, read, apart, later]
    | quote content =>
      rw [words, List.cons_append, List.cons_append, List.append_assoc, List.singleton_append, read, if_pos ⟨rfl, rfl⟩,
        read_content true (unquoted content (List.mem_cons_self ..)), later]
      rfl

end Piece

/-- The pieces of a program with the devices that are missing before functions. -/
def completedPieces (devices : OrderedMap String String) : (last : Option String) → List Piece → List Piece
  | _, [] => []
  | last, .word text :: rest =>
    (missing devices last text).map .word ++ .word text :: completedPieces devices (some text) rest
  | _, .quote content :: rest => .quote content :: completedPieces devices none rest

theorem completedPieces_words (devices : OrderedMap String String) (last : Option String) (words : List String) :
    completedPieces devices last (words.map .word) = (completed devices last words).map .word := by
  induction words generalizing last with
  | nil => rfl
  | cons text rest ih => simp [completedPieces, completed, ih]

/-- A piece may stand for a terminal: a word as ever, a quoted text for the class of copied spans. -/
inductive Draft.Shows (d : Draft) : Piece → Terminal → Prop where
  | word {text : String} {terminal : Terminal} (stands : d.StandsFor text terminal) : Shows d (.word text) terminal
  | quote {name : String} {declaration : CopyClass} {content : List String}
      (declared : d.copy.get? name = some declaration) : Shows d (.quote content) (.copy name)

theorem Draft.shows_word_iff {d : Draft} {text : String} {terminal : Terminal} :
    d.Shows (.word text) terminal ↔ d.StandsFor text terminal := by
  constructor
  · intro shows'
    cases shows' with
    | word stands => exact stands
  · exact .word

theorem Schema.quotation_mem (s : Schema) : .quotation ∈ s.clauses := by
  refine List.mem_append_right _ (List.mem_append_left _ (List.mem_flatMap.mpr ⟨.string, ?_, ?_⟩))
  · simp [answerTypes]
  · simp [constantClauses, stringClauses]

namespace Vocabulary

inductive Takes (v : Vocabulary) : Piece → Term → Prop where
  | word {text : String} {term : Term} (read : v.classify text = .ok term) : Takes v (.word text) term
  | quote {token : Nat} {content : List String} (opens : v.openings.lookup "\"" = some (token, "\"")) :
      Takes v (.quote content) ⟨token, .words content⟩

theorem takes_word_iff {v : Vocabulary} {text : String} {term : Term} :
    v.Takes (.word text) term ↔ v.classify text = .ok term := by
  constructor
  · intro takes
    cases takes with
    | word read => exact read
  · exact .word

theorem takes_quote_iff {v : Vocabulary} {content : List String} {term : Term} :
    v.Takes (.quote content) term ↔
      ∃ token, v.openings.lookup "\"" = some (token, "\"") ∧ term = ⟨token, .words content⟩ := by
  constructor
  · intro takes
    cases takes with
    | quote opens => exact ⟨_, opens, rfl⟩
  · intro ⟨token, opens, same⟩
    rw [same]
    exact .quote opens

/-- The terms of a program are read from the pieces that were found, with the devices that are missing. -/
def TakesAll (v : Vocabulary) (devices : OrderedMap String String) (last : Option String) (found : Option (List Piece))
    (terms : List Term) : Prop :=
  ∃ pieces, found = some pieces ∧ List.Forall₂ v.Takes (completedPieces devices last pieces) terms

section

variable {v : Vocabulary} {devices : OrderedMap String String} {last : Option String} {found : Option (List Piece)}
  {terms : List Term}

theorem takesAll_word {text : String} : v.TakesAll devices last (found.map (.word text :: ·)) terms ↔
    ∃ front, List.Forall₂ (fun word term => v.classify word = .ok term) (missing devices last text) front ∧
      ∃ term, v.classify text = .ok term ∧ ∃ later, v.TakesAll devices (some text) found later ∧ front ++ term :: later = terms := by
  simp only [TakesAll, Option.map_eq_some_iff, existsAndEq, and_true, completedPieces, forall₂_append_cons_iff,
    List.forall₂_map_left_iff, takes_word_iff]
  constructor
  · intro ⟨pieces, same, front, supplied, term, read, later, behind, whole⟩
    exact ⟨front, supplied, term, read, later, ⟨pieces, same, behind⟩, whole⟩
  · intro ⟨front, supplied, term, read, later, ⟨pieces, same, behind⟩, whole⟩
    exact ⟨pieces, same, front, supplied, term, read, later, behind, whole⟩

theorem takesAll_quote {token : Nat} (marked : v.openings.lookup "\"" = some (token, "\"")) {content : List String} :
    v.TakesAll devices last (found.map (.quote content :: ·)) terms ↔
      ∃ later, v.TakesAll devices none found later ∧ ⟨token, .words content⟩ :: later = terms := by
  constructor
  · intro ⟨_, whole, related⟩
    obtain ⟨pieces, same, rfl⟩ := Option.map_eq_some_iff.mp whole
    obtain ⟨term, later, first, behind, rfl⟩ := List.forall₂_cons_left_iff.mp related
    obtain ⟨other, opens, rfl⟩ := takes_quote_iff.mp first
    cases Option.some.inj (marked.symm.trans opens)
    exact ⟨later, ⟨pieces, same, behind⟩, rfl⟩
  · intro ⟨later, ⟨pieces, same, behind⟩, whole⟩
    rw [← whole]
    exact ⟨_, Option.map_eq_some_iff.mpr ⟨pieces, same, rfl⟩, .cons (.quote marked) behind⟩

end

variable {s : Schema} {g : Grammar} {devices : OrderedMap String String} {token : Nat}

theorem lookup_mark (built : s.draft.build = .ok g) : ∃ token,
    (ofGrammar g.toDraft g.number devices).openings.lookup "\"" = some (token, "\"") ∧
      g.number.terminal? token = some (.copy quotedString) := by
  have declared : g.copy.get? quotedString = some s.quotation := by
    rw [Draft.toDraft_of_build built, Schema.copy_draft, if_pos ⟨rfl, s.quotation_mem⟩]
  have member : .copy quotedString ∈ g.terminals := g.mem_terminals.mpr
    (Or.inr (Or.inr ⟨_, OrderedMap.contains_iff.mp (OrderedMap.contains_of_get? declared), rfl⟩))
  obtain ⟨token, named⟩ : ∃ token, g.number.terminal? token = some (.copy quotedString) :=
    ⟨_, Grammar.terminal?_number.mpr ⟨member, rfl⟩⟩
  have entry : ("\"", token, "\"") ∈ (ofGrammar g.toDraft g.number devices).openings := by
    refine List.mem_filterMap.mpr ⟨_, List.mem_reverse.mpr (Numbered.mem_numberedTerminals.mpr named), ?_⟩
    simp [declared, Schema.quotation]
  cases found : (ofGrammar g.toDraft g.number devices).openings.lookup "\"" with
  | none => simpa using List.lookup_eq_none_iff.mp found _ entry
  | some opening =>
    obtain ⟨other, closing⟩ := opening
    obtain ⟨declaration, known, _, closes⟩ := of_openings found
    obtain ⟨name, named, declared⟩ := Draft.copyClass?_eq_some_iff.mp known
    obtain ⟨rfl, rfl⟩ := Schema.quotation_of_copy built declared
    exact ⟨other, by rw [← closes]; rfl, named⟩

theorem lookup_unmarked (built : s.draft.build = .ok g) {text : String} (apart : text ≠ "\"") :
    (ofGrammar g.toDraft g.number devices).openings.lookup text = none := by
  apply lookup_openings_eq_none
  intro name declaration declared opening
  obtain ⟨_, rfl⟩ := Schema.quotation_of_copy built declared
  exact apart opening.symm

/-- A quoted text is no device, so a function behind it is read like one at the start of a program. -/
private theorem termsFrom_behind_quote (named : g.number.terminal? token = some (.copy quotedString)) (span : Option OpenSpan)
    (words : List String) : (ofGrammar g.toDraft g.number devices).termsFrom span (some token) words =
      (ofGrammar g.toDraft g.number devices).termsFrom span none words := by
  have missing : ∀ text, (ofGrammar g.toDraft g.number devices).missingDevice (some token) text =
      (ofGrammar g.toDraft g.number devices).missingDevice none text := by
    intro text
    simp only [missingDevice]
    split
    · rfl
    · split
      · rfl
      next other found =>
        have apart : token ≠ other := by
          rintro rfl
          cases (of_fixed found).symm.trans named
        simp [apart]
  induction words generalizing span with
  | nil => cases span <;> rfl
  | cons text rest ih =>
    cases span with
    | some start => simp only [termsFrom, ih]
    | none => simp only [termsFrom, ih, missing]

/-- Outside of quoted texts a word is read with the device that is missing before it. -/
private theorem termsFrom_piece (built : s.draft.build = .ok g) (fixed : g.FixesDevices devices) {text : String}
    (apart : text ≠ "\"") {rest : List String} {last : Option Nat} {lastWord : Option String} {found : Option (List Piece)}
    (ends : (ofGrammar g.toDraft g.number devices).EndsWith last lastWord)
    (behind : ∀ {term later}, (ofGrammar g.toDraft g.number devices).classify text = .ok term →
      ((ofGrammar g.toDraft g.number devices).termsFrom none (some term.token) rest = .ok later ↔
        (ofGrammar g.toDraft g.number devices).TakesAll devices (some text) found later)) {terms : List Term} :
    (ofGrammar g.toDraft g.number devices).termsFrom none last (text :: rest) = .ok terms ↔
      (ofGrammar g.toDraft g.number devices).TakesAll devices lastWord (found.map (.word text :: ·)) terms := by
  rw [termsFrom, lookup_unmarked built apart, takesAll_word]
  simp only [bind_eq_ok, pure, Except.pure, Except.ok.injEq, missingDevice_eq_ok_iff fixed ends]
  refine exists_congr fun front => and_congr_right fun _ => exists_congr fun term => and_congr_right fun read => ?_
  simp only [behind read]

/-- The terms of a program are those of its pieces with their devices, one by one. -/
theorem termsFrom_eq_ok_iff_pieces (built : s.draft.build = .ok g) (fixed : g.FixesDevices devices) {words : List String}
    {last : Option Nat} {lastWord : Option String}
    (ends : (ofGrammar g.toDraft g.number devices).EndsWith last lastWord) {terms : List Term} :
    (ofGrammar g.toDraft g.number devices).termsFrom none last words = .ok terms ↔
      (ofGrammar g.toDraft g.number devices).TakesAll devices lastWord (Piece.read true none words) terms := by
  obtain ⟨token, marked, named⟩ := @lookup_mark s g devices built
  suffices both : ∀ words : List String,
      (∀ last lastWord terms, (ofGrammar g.toDraft g.number devices).EndsWith last lastWord →
        ((ofGrammar g.toDraft g.number devices).termsFrom none last words = .ok terms ↔
          (ofGrammar g.toDraft g.number devices).TakesAll devices lastWord (Piece.read true none words) terms)) ∧
      ∀ last lastWord content terms,
        ((ofGrammar g.toDraft g.number devices).termsFrom (some ⟨token, "\"", "\"", content⟩) last words = .ok terms ↔
          (ofGrammar g.toDraft g.number devices).TakesAll devices lastWord (Piece.read true (some content) words) terms) from
    (both words).1 last lastWord terms ends
  intro words
  induction words with
  | nil => exact ⟨by simp [termsFrom, TakesAll, Piece.read, completedPieces, eq_comm], by simp [termsFrom, TakesAll, Piece.read]⟩
  | cons text rest ih =>
    obtain ⟨outside, inside⟩ := ih
    constructor
    · intro last lastWord terms ends
      by_cases mark : text = "\""
      · subst mark
        simp only [termsFrom, marked, Piece.read, and_self, if_true]
        exact inside last lastWord [] terms
      · simp only [Piece.read, mark, and_false, if_false]
        exact termsFrom_piece built fixed mark ends fun read => outside _ _ _ (.behind read)
    · intro last lastWord content terms
      by_cases mark : text = "\""
      · subst mark
        simp only [termsFrom, Piece.read, if_true, bind_eq_ok, pure, Except.pure, Except.ok.injEq, takesAll_quote marked,
          termsFrom_behind_quote named, outside none none _ .start]
      · simp only [termsFrom, Piece.read, mark, if_false]
        exact inside last lastWord (content ++ [text]) terms

end Vocabulary

namespace Codec

variable {c : Codec} {g : Grammar} {devices : OrderedMap String String} {s : Schema}

/-- A piece is read as a term of a terminal of the grammar exactly if it may stand for this terminal. -/
theorem exists_term_iff_shows (built : s.draft.build = .ok g) (clear : g.Unmistakable) (covers : c.Covers g devices)
    (wide : 2 ≤ c.config.maxInputLength) (sentence : List String) {piece : Piece} {terminal : Terminal}
    (member : terminal ∈ g.terminals) :
    (∃ term, c.vocabulary.Takes piece term ∧ c.automaton.grammar.terminal? (c.leaf sentence term).token = some terminal ∧
      g.Fits terminal (c.leaf sentence term).payload) ↔ g.Shows piece terminal := by
  obtain ⟨token, marked, named⟩ := @Vocabulary.lookup_mark s g devices built
  rw [← covers.vocabulary] at marked
  rw [← covers.table.grammar] at named
  cases piece with
  | word text =>
    rw [Draft.shows_word_iff, ← exists_term_iff covers wide clear sentence member]
    simp only [Vocabulary.takes_word_iff]
  | quote content =>
    constructor
    · rintro ⟨term, takes, named', _⟩
      cases takes with
      | quote opens =>
        cases Option.some.inj (marked.symm.trans opens)
        obtain rfl := Option.some.inj (named.symm.trans named')
        obtain ⟨_, declared⟩ := Grammar.copy_of_mem_terminals member
        exact .quote declared
    · intro shows'
      cases shows' with
      | quote declared =>
        obtain ⟨rfl, _⟩ := Schema.quotation_of_copy built declared
        exact ⟨⟨token, .words content⟩, .quote marked, named, .copy (c.locate_bounds wide sentence content).2.1⟩

/-- A plain codec over the grammar of a schema writes the programs whose pieces stand for a sequence of the language. -/
theorem exists_encode_iff_pieces (built : s.draft.build = .ok g) (called : ∀ function ∈ s.functions, capital function.word = false)
    (covers : c.Covers g devices) (wide : 2 ≤ c.config.maxInputLength)
    (small : ∀ word device, devices.get? word = some device → capital device = false) (sentence : List String) (program : String) :
    (∃ v, c.encode sentence program = .ok v) ↔ ∃ pieces terminals, Piece.read true none (Text.words program) = some pieces ∧
      List.Forall₂ g.Shows (completedPieces devices none pieces) terminals ∧ g.Generates terminals := by
  have clear := Schema.unmistakable called built
  have fixed : g.FixesDevices devices := fun word device asked _ =>
    Schema.eq_fixed_of_standsFor called built (small word device asked)
  have taken : ∀ {terms}, c.vocabulary.terms program = .ok terms ↔ ∃ pieces,
      Piece.read true none (Text.words program) = some pieces ∧
        List.Forall₂ c.vocabulary.Takes (completedPieces devices none pieces) terms := by
    rw [covers.vocabulary]
    exact Vocabulary.termsFrom_eq_ok_iff_pieces built fixed .start
  have told : ∀ {pieces terminals}, g.Generates terminals → ((∃ terms, List.Forall₂ c.vocabulary.Takes pieces terms ∧
      c.automaton.Names g.toDraft (terms.map (c.leaf sentence)) terminals) ↔ List.Forall₂ g.Shows pieces terminals) := by
    intro pieces terminals generated
    have members := Grammar.mem_terminals_of_generates generated
    have meaning {piece terminal} (member : terminal ∈ g.terminals) :=
      @exists_term_iff_shows c g devices s built clear covers wide sentence piece terminal member
    simp only [Automaton.Names, List.forall₂_map_left_iff, forall₂_comp_iff]
    constructor
    · exact fun related => (forall₂_of_mem_right related members).imp fun _ _ both => (meaning both.2).mp both.1
    · exact fun related => (forall₂_of_mem_right related members).imp fun _ _ both => (meaning both.2).mpr both.1
  rw [exists_encode_iff_terms covers]
  constructor
  · rintro ⟨terms, terminals, read, named, generated⟩
    obtain ⟨pieces, found, related⟩ := taken.mp read
    exact ⟨pieces, terminals, found, (told generated).mp ⟨terms, related, named⟩, generated⟩
  · rintro ⟨pieces, terminals, found, related, generated⟩
    obtain ⟨terms, related, named⟩ := (told generated).mpr related
    exact ⟨terms, terminals, taken.mpr ⟨pieces, found, related⟩, named, generated⟩

/-- A codec of a catalog's language writes the programs whose pieces stand for a sequence of the language. Where classes
are spelled out nothing is quoted. -/
theorem exists_encode_iff_shows {catalog : Catalog} {splitDevices : Bool} {valueCount : Nat} {language : Language}
    (compiled : catalog.language splitDevices valueCount = .ok language) {config : CodecConfig}
    (assembled : ofLanguage language config = .ok c) (sentence : List String) (program : String) :
    (∃ v, c.encode sentence program = .ok v) ↔ ∃ pieces terminals,
      Piece.read (!config.flatten) none (Text.words program) = some pieces ∧
      List.Forall₂ language.grammar.Shows (completedPieces language.deviceWords none pieces) terminals ∧
      language.grammar.Generates terminals := by
  obtain ⟨s, built, called⟩ := Catalog.exists_schema compiled
  obtain ⟨g, covers, rfl, sound, source⟩ := covers_of_ofLanguage assembled
  have wide := two_le_of_sound sound
  cases flat : c.config.flatten with
  | false =>
    rw [flat] at source
    obtain rfl : language.grammar = g := Except.ok.inj source
    exact exists_encode_iff_pieces built called covers wide (fun _ _ => Language.capital_deviceWords) sentence program
  | true =>
    rw [flat] at source
    obtain ⟨_, values, spans, _⟩ := Grammar.spellOut_eq_ok source
    rw [exists_encode_iff_of_classless covers wide values spans,
      Grammar.spellOut_generates_iff (Schema.classesApart called built) source]
    simp only [Bool.not_true, Piece.read_unquoting, Option.some.injEq, ↓existsAndEq, true_and, completedPieces_words,
      List.forall₂_map_left_iff, Draft.shows_word_iff]

end Codec

end CommandLang
