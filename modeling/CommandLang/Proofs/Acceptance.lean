import CommandLang.Proofs.Directions
import CommandLang.Proofs.Spelling

/-! Programs as sentences. A program without spans can be written if its words, with the devices that are missing, stand
for a sequence of the language. This holds of every codec over a grammar whose words each stand for one terminal. -/

namespace CommandLang

def missing (devices : OrderedMap String String) (last : Option String) (word : String) : List String :=
  match devices.get? word with
  | some device => if last = some device then [] else [device]
  | none => []

/-- The words of a program with the devices that are missing before functions; `last` is the word before them. -/
def completed (devices : OrderedMap String String) : (last : Option String) → List String → List String
  | _, [] => []
  | last, word :: rest => missing devices last word ++ word :: completed devices (some word) rest

namespace Grammar

variable {g : Grammar}

theorem mem_terminals_of_generates {word : List Terminal} (generated : g.Generates word) :
    ∀ terminal ∈ word, terminal ∈ g.terminals := by
  have inside : ∀ {form : Rhs}, Derives g.HasRule [.nonterminal g.start] form →
      ∀ terminal, .terminal terminal ∈ form → terminal ∈ g.terminals := by
    intro form derived
    induction derived with
    | refl => simp
    | tail _ step ih =>
      intro terminal used
      cases step with
      | intro front back known =>
        rcases List.mem_append.mp used with earlier | behind
        · rcases List.mem_append.mp earlier with before | here
          · exact ih terminal (List.mem_append_left _ before)
          · exact g.mem_terminals.mpr (Or.inl ⟨_, _, known, here⟩)
        · exact ih terminal (List.mem_append_right _ (List.mem_cons_of_mem _ behind))
  exact fun terminal member => inside generated terminal (List.mem_map_of_mem member)

end Grammar

private theorem lookup_isSome {κ υ : Type} [BEq κ] [LawfulBEq κ] {entries : List (κ × υ)} {key : κ} {value : υ}
    (member : (key, value) ∈ entries) : ∃ found, entries.lookup key = some found := by
  cases found : entries.lookup key with
  | some value => exact ⟨value, rfl⟩
  | none => simpa using List.lookup_eq_none_iff.mp found _ member

theorem forall₂_append_cons_iff {α β : Type} {R : α → β → Prop} {front back : List α} {a : α} {whole : List β} :
    List.Forall₂ R (front ++ a :: back) whole ↔
      ∃ before, List.Forall₂ R front before ∧ ∃ b, R a b ∧ ∃ behind, List.Forall₂ R back behind ∧ before ++ b :: behind = whole := by
  constructor
  · intro related
    obtain ⟨before, rest, rfl, here, others⟩ := exists_append_of_forall₂ related
    obtain ⟨b, behind, first, later, rfl⟩ := List.forall₂_cons_left_iff.mp others
    exact ⟨before, here, b, first, behind, later, rfl⟩
  · intro ⟨before, here, b, first, behind, later, same⟩
    rw [← same]
    exact List.rel_append here (.cons first later)

theorem forall₂_comp_iff {α β γ : Type} {R : α → β → Prop} {S : β → γ → Prop} {left : List α} {right : List γ} :
    (∃ between, List.Forall₂ R left between ∧ List.Forall₂ S between right) ↔
      List.Forall₂ (fun a c => ∃ b, R a b ∧ S b c) left right := by
  constructor
  · intro meeting
    obtain ⟨between, first, second⟩ := meeting
    induction first generalizing right with
    | nil =>
      cases second
      exact .nil
    | cons here _ ih =>
      cases second with
      | cons there others => exact .cons ⟨_, here, there⟩ (ih others)
  · intro related
    induction related with
    | nil => exact ⟨[], .nil, .nil⟩
    | cons both _ ih =>
      obtain ⟨b, here, there⟩ := both
      obtain ⟨between, first, second⟩ := ih
      exact ⟨b :: between, .cons here first, .cons there second⟩

theorem forall₂_of_mem_right {α β : Type} {R : α → β → Prop} {p : β → Prop} {left : List α} {right : List β}
    (related : List.Forall₂ R left right) (members : ∀ b ∈ right, p b) :
    List.Forall₂ (fun a b => R a b ∧ p b) left right := by
  induction related with
  | nil => exact .nil
  | cons here _ ih =>
    obtain ⟨first, others⟩ := List.forall_mem_cons.mp members
    exact .cons ⟨here, first⟩ (ih others)

namespace Vocabulary

variable {g : Grammar} {devices : OrderedMap String String} {word : String} {terminal : Terminal} {term : Term}

theorem lookup_fixed_iff {token : Nat} : (ofGrammar g.toDraft g.number devices).fixed.lookup word = some token ↔
    g.number.terminal? token = some (.fixed word) := by
  refine ⟨of_fixed, fun named => ?_⟩
  have entry : (word, token) ∈ (ofGrammar g.toDraft g.number devices).fixed :=
    List.mem_filterMap.mpr ⟨_, List.mem_reverse.mpr (Numbered.mem_numberedTerminals.mpr named), rfl⟩
  obtain ⟨other, found⟩ := lookup_isSome entry
  rw [found, Grammar.terminal?_number_inj named (of_fixed found)]

theorem exists_classify (member : terminal ∈ g.terminals) (stands : g.StandsFor word terminal) :
    ∃ term, (ofGrammar g.toDraft g.number devices).classify word = .ok term := by
  obtain ⟨token, named⟩ : ∃ token, g.number.terminal? token = some terminal :=
    ⟨_, Grammar.terminal?_number.mpr ⟨member, rfl⟩⟩
  have listed := List.mem_reverse.mpr (Numbered.mem_numberedTerminals.mpr named)
  rw [classify]
  split
  · exact ⟨_, rfl⟩
  next unfixed =>
    cases stands with
    | fixed => cases unfixed.symm.trans (lookup_fixed_iff.mpr named)
    | classWord declared inside =>
      cases declared with
      | @extensible name _ declared =>
        obtain ⟨place, placed⟩ := List.mem_iff_getElem?.mp inside
        have entry : (word, token, place) ∈ (ofGrammar g.toDraft g.number devices).values := by
          refine List.mem_flatMap.mpr ⟨_, listed, List.mem_reverse.mpr (List.mem_map.mpr ⟨(word, place), ?_, rfl⟩)⟩
          simpa [declared] using List.mk_mem_zipIdx_iff_getElem?.mpr placed
        obtain ⟨⟨_, _⟩, found⟩ := lookup_isSome entry
        rw [found]
        exact ⟨_, rfl⟩
      | @copy name _ declared =>
        have entry : (word, token) ∈ (ofGrammar g.toDraft g.number devices).placeholders := by
          refine List.mem_flatMap.mpr ⟨_, listed, ?_⟩
          simpa [declared] using inside
        obtain ⟨_, found⟩ := lookup_isSome entry
        split
        · exact ⟨_, rfl⟩
        · rw [found]
          exact ⟨_, rfl⟩

theorem terminal?_of_classify (read : (ofGrammar g.toDraft g.number devices).classify word = .ok term) :
    ∃ terminal, g.number.terminal? term.token = some terminal ∧ g.StandsFor word terminal := by
  rw [classify] at read
  split at read
  next token found =>
    cases read
    exact ⟨_, of_fixed found, .fixed word⟩
  next =>
    split at read
    next token place found =>
      cases read
      obtain ⟨name, vocabulary, named, declared, placed⟩ := of_values found
      exact ⟨_, named, .classWord (.extensible declared) (List.mem_of_getElem? placed)⟩
    next =>
      split at read
      next token found =>
        cases read
        obtain ⟨declaration, known, inside⟩ := of_placeholders found
        obtain ⟨name, named, declared⟩ := Draft.copyClass?_eq_some_iff.mp known
        exact ⟨_, named, .classWord (.copy declared) inside⟩
      next => cases read

/-- The token of the last term of a program, and the word that it was read from. -/
inductive EndsWith (v : Vocabulary) : Option Nat → Option String → Prop where
  | start : EndsWith v none none
  | behind {word : String} {term : Term} (read : v.classify word = .ok term) : EndsWith v (some term.token) (some word)

variable {last : Option Nat} {lastWord : Option String}

theorem classify_device (fixed : g.FixesDevices devices) {device : String} (asked : devices.get? word = some device)
    (read : (ofGrammar g.toDraft g.number devices).classify device = .ok term) :
    (ofGrammar g.toDraft g.number devices).fixed.lookup device = some term.token ∧ term.value = .none := by
  obtain ⟨terminal, named, stands⟩ := terminal?_of_classify read
  obtain rfl := fixed word device asked terminal stands
  have found := @lookup_fixed_iff g devices device term.token |>.mpr named
  rw [classify, found] at read
  exact ⟨found, congrArg Term.value (Except.ok.inj read).symm⟩

theorem EndsWith.last_eq_iff (fixed : g.FixesDevices devices) {device : String} (asked : devices.get? word = some device)
    (ends : (ofGrammar g.toDraft g.number devices).EndsWith last lastWord) {token : Nat}
    (found : (ofGrammar g.toDraft g.number devices).fixed.lookup device = some token) :
    last = some token ↔ lastWord = some device := by
  cases ends with
  | start => simp
  | @behind before term read =>
    simp only [Option.some.injEq]
    constructor
    · intro same
      obtain ⟨terminal, named, stands⟩ := terminal?_of_classify read
      rw [same, of_fixed found] at named
      obtain rfl := Option.some.inj named
      generalize target : Terminal.fixed device = terminal at stands
      cases stands with
      | fixed => exact (Terminal.fixed.inj target).symm
      | classWord declared => cases declared <;> cases target
    · intro same
      subst same
      exact Option.some.inj ((classify_device fixed asked read).1.symm.trans found)

theorem missingDevice_eq_ok_iff (fixed : g.FixesDevices devices)
    (ends : (ofGrammar g.toDraft g.number devices).EndsWith last lastWord) {terms : List Term} :
    (ofGrammar g.toDraft g.number devices).missingDevice last word = .ok terms ↔
      List.Forall₂ (fun word term => (ofGrammar g.toDraft g.number devices).classify word = .ok term)
        (missing devices lastWord word) terms := by
  have same : (ofGrammar g.toDraft g.number devices).devices.get? word = devices.get? word := rfl
  rw [missingDevice, missing, same]
  cases asked : devices.get? word with
  | none => simp [eq_comm]
  | some device =>
    dsimp only
    cases found : (ofGrammar g.toDraft g.number devices).fixed.lookup device with
    | none =>
      have unread : ∀ term, (ofGrammar g.toDraft g.number devices).classify device ≠ .ok term := by
        intro term read
        cases found.symm.trans (classify_device fixed asked read).1
      have apart : lastWord ≠ some device := by
        intro same
        subst same
        cases ends with
        | behind read => exact unread _ read
      rw [if_neg apart]
      simp [List.forall₂_cons_left_iff, unread]
    | some token =>
      have read : (ofGrammar g.toDraft g.number devices).classify device = .ok ⟨token, .none⟩ := by
        rw [classify, found]
      simp only [ends.last_eq_iff fixed asked found, Except.ok.injEq]
      split
      · simp [eq_comm]
      · simp [List.forall₂_cons_left_iff, read, eq_comm]

/-- The terms of words outside of spans are those of the words with their devices, one by one. -/
theorem termsFrom_eq_ok_iff (fixed : g.FixesDevices devices) {words : List String}
    (unopened : ∀ word ∈ words, (ofGrammar g.toDraft g.number devices).openings.lookup word = none)
    (ends : (ofGrammar g.toDraft g.number devices).EndsWith last lastWord) {terms : List Term} :
    (ofGrammar g.toDraft g.number devices).termsFrom none last words = .ok terms ↔
      List.Forall₂ (fun word term => (ofGrammar g.toDraft g.number devices).classify word = .ok term)
        (completed devices lastWord words) terms := by
  induction words generalizing last lastWord terms with
  | nil => simp [termsFrom, completed, eq_comm]
  | cons word rest ih =>
    obtain ⟨here, others⟩ := List.forall_mem_cons.mp unopened
    rw [termsFrom, here, completed, forall₂_append_cons_iff]
    simp only [bind_eq_ok, missingDevice_eq_ok_iff fixed ends, pure, Except.pure, Except.ok.injEq]
    refine exists_congr fun front => and_congr_right fun _ => exists_congr fun term => and_congr_right fun read => ?_
    simp only [ih others (.behind read)]

end Vocabulary

namespace Codec

variable {c : Codec} {g : Grammar} {devices : OrderedMap String String}

/-- The leaf of a word names a terminal that the word stands for, and carries what this terminal asks for. -/
theorem fits_of_classify (covers : c.Covers g devices) (wide : 2 ≤ c.config.maxInputLength) (sentence : List String)
    {word : String} {term : Term} (read : c.vocabulary.classify word = .ok term) :
    ∃ terminal, c.automaton.grammar.terminal? (c.leaf sentence term).token = some terminal ∧
      g.Fits terminal (c.leaf sentence term).payload ∧ g.StandsFor word terminal := by
  rw [covers.vocabulary] at read
  rw [covers.table.grammar]
  obtain ⟨terminal, named, stands⟩ := Vocabulary.terminal?_of_classify read
  have spells := Vocabulary.spells_of_classify read
  generalize Vocabulary.enclosed _ term word = parts at spells
  cases spells with
  | fixed named' =>
    obtain rfl := Option.some.inj (named.symm.trans named')
    exact ⟨_, named, .fixed, stands⟩
  | value named' declared placed =>
    obtain rfl := Option.some.inj (named.symm.trans named')
    exact ⟨_, named, .extensible declared (List.getElem?_eq_some_iff.mp placed).1, stands⟩
  | span named' =>
    obtain rfl := Option.some.inj (named.symm.trans named')
    exact ⟨_, named, .copy (c.locate_bounds wide sentence _).2.1, stands⟩

/-- A word is read as a term of a terminal of the grammar exactly if it stands for this terminal. -/
theorem exists_term_iff (covers : c.Covers g devices) (wide : 2 ≤ c.config.maxInputLength) (clear : g.Unmistakable)
    (sentence : List String) {word : String} {terminal : Terminal} (member : terminal ∈ g.terminals) :
    (∃ term, c.vocabulary.classify word = .ok term ∧
      c.automaton.grammar.terminal? (c.leaf sentence term).token = some terminal ∧
      g.Fits terminal (c.leaf sentence term).payload) ↔ g.StandsFor word terminal := by
  constructor
  · intro read
    obtain ⟨term, read, named, _⟩ := read
    obtain ⟨_, named', _, stands⟩ := fits_of_classify covers wide sentence read
    rwa [Option.some.inj (named.symm.trans named')]
  · intro stands
    have known := @Vocabulary.exists_classify g devices word terminal member stands
    rw [← covers.vocabulary] at known
    obtain ⟨term, read⟩ := known
    obtain ⟨other, named, fits, stands'⟩ := fits_of_classify covers wide sentence read
    rw [covers.table.grammar] at named ⊢
    obtain rfl := clear word terminal other member (Grammar.terminal?_number.mp named).1 stands stands'
    exact ⟨term, read, named, fits⟩

/-- A program can be written if its terms name terminals that form a sequence of the language. -/
theorem exists_encode_iff_terms (covers : c.Covers g devices) (sentence : List String) (program : String) :
    (∃ v, c.encode sentence program = .ok v) ↔ ∃ terms terminals, c.vocabulary.terms program = .ok terms ∧
      c.automaton.Names g.toDraft (terms.map (c.leaf sentence)) terminals ∧ g.Generates terminals := by
  have outcome : (∃ v, c.encode sentence program = .ok v) ↔
      ∃ terms, c.vocabulary.terms program = .ok terms ∧
        ∃ events, c.automaton.parse .bottomUp (terms.map (c.leaf sentence)) = .ok events := by
    have same := congrArg (fun result => result = .ok ()) (c.encode_outcome sentence program)
    simp only [map_eq_ok, bind_eq_ok, mapError_eq_ok, and_true, eq_iff_iff] at same
    exact same
  simp only [outcome, Automaton.parse_eq_ok_iff covers.table g.number_lawful, ← Grammar.exists_names_iff covers.table.grammar]
  constructor
  · intro parsed
    obtain ⟨terms, read, _, ⟨terminals, named⟩, forest, tree, whole, _⟩ := parsed
    exact ⟨terms, terminals, read, named, (Grammar.generates_iff_forest covers.table.grammar named).mpr ⟨forest, tree, whole⟩⟩
  · intro generated
    obtain ⟨terms, terminals, read, named, generated⟩ := generated
    obtain ⟨forest, tree, whole⟩ := (Grammar.generates_iff_forest covers.table.grammar named).mp generated
    exact ⟨terms, read, _, ⟨terminals, named⟩, forest, tree, whole, rfl⟩

/-- A program without spans can be written if its words, with the devices that are missing, stand for a sequence of the
language. -/
theorem exists_encode_iff (covers : c.Covers g devices) (wide : 2 ≤ c.config.maxInputLength) (clear : g.Unmistakable)
    (fixed : g.FixesDevices devices) (sentence : List String) {program : String}
    (unopened : ∀ word ∈ Text.words program, c.vocabulary.openings.lookup word = none) :
    (∃ v, c.encode sentence program = .ok v) ↔ ∃ terminals,
      List.Forall₂ g.StandsFor (completed devices none (Text.words program)) terminals ∧ g.Generates terminals := by
  have classified : ∀ {terms}, c.vocabulary.terms program = .ok terms ↔
      List.Forall₂ (fun word term => c.vocabulary.classify word = .ok term)
        (completed devices none (Text.words program)) terms := by
    rw [covers.vocabulary] at unopened ⊢
    exact Vocabulary.termsFrom_eq_ok_iff fixed unopened .start
  have told : ∀ {terminals}, (∃ terms, c.vocabulary.terms program = .ok terms ∧
      c.automaton.Names g.toDraft (terms.map (c.leaf sentence)) terminals) ↔
        List.Forall₂ (fun word terminal => ∃ term, c.vocabulary.classify word = .ok term ∧
          c.automaton.grammar.terminal? (c.leaf sentence term).token = some terminal ∧
          g.Fits terminal (c.leaf sentence term).payload) (completed devices none (Text.words program)) terminals := by
    simp only [classified, Automaton.Names, List.forall₂_map_left_iff, forall₂_comp_iff, implies_true]
  rw [exists_encode_iff_terms covers]
  constructor
  · intro parsed
    obtain ⟨terms, terminals, read, named, generated⟩ := parsed
    refine ⟨terminals, ?_, generated⟩
    have related := told.mp ⟨terms, read, named⟩
    have members := Grammar.mem_terminals_of_generates generated
    exact (forall₂_of_mem_right related members).imp fun _ _ both => (exists_term_iff covers wide clear sentence both.2).mp both.1
  · intro stands
    obtain ⟨terminals, stands, generated⟩ := stands
    have members := Grammar.mem_terminals_of_generates generated
    obtain ⟨terms, read, named⟩ := told.mpr ((forall₂_of_mem_right stands members).imp fun _ _ both =>
      (exists_term_iff covers wide clear sentence both.2).mpr both.1)
    exact ⟨terms, terminals, read, named, generated⟩

end Codec

end CommandLang
