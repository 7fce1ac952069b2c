import CommandLang.Program.Vocabulary
import CommandLang.Proofs.Entries
import Mathlib.Data.List.Forall2

/-! What the terms of a program stand for. Every term names a terminal of the grammar, and its words are the words
it was read from; only a placeholder gets the words that open and close its class around it. -/

namespace CommandLang

theorem Numbered.mem_numberedTerminals {g : Numbered} {terminal : Terminal} {token : Nat} :
    (terminal, token) ∈ g.terminals.toList.zipIdx Token.controls ↔ g.terminal? token = some terminal := by
  rw [List.mk_mem_zipIdx_iff_le_and_getElem?_sub, Numbered.terminal?, Array.getElem?_toList]
  split
  next below => simp only [reduceCtorEq, iff_false, not_and]; omega
  next above => simp only [and_iff_right_iff_imp]; omega

theorem Numbered.bounds_of_terminal? {g : Numbered} {terminal : Terminal} {token : Nat}
    (named : g.terminal? token = some terminal) : Token.controls ≤ token ∧ token < g.tokenCount := by
  rw [Numbered.terminal?] at named
  split at named
  · cases named
  next above =>
    have inside := (Array.getElem?_eq_some_iff.mp named).1
    simp only [Numbered.tokenCount]
    omega

/-- The words that a term stands for. A span stands between the words that open and close its class. -/
inductive Draft.Spells (d : Draft) (g : Numbered) : Term → List String → Prop where
  | fixed {token : Nat} {text : String} (named : g.terminal? token = some (.fixed text)) : Spells d g ⟨token, .none⟩ [text]
  | value {token place : Nat} {name word : String} {vocabulary : List String}
      (named : g.terminal? token = some (.extensible name)) (declared : d.extensible.get? name = some vocabulary)
      (placed : vocabulary[place]? = some word) : Spells d g ⟨token, .index place⟩ [word]
  | span {token : Nat} {name : String} {declaration : CopyClass} {content : List String}
      (named : g.terminal? token = some (.copy name)) (declared : d.copy.get? name = some declaration) :
      Spells d g ⟨token, .words content⟩ (declaration.opening :: content ++ [declaration.closing])

/-- The copy class that a token stands for. -/
def Draft.copyClass? (d : Draft) (g : Numbered) (token : Nat) : Option CopyClass :=
  match g.terminal? token with
  | some (.copy name) => d.copy.get? name
  | _ => none

theorem Draft.copyClass?_eq_some_iff {d : Draft} {g : Numbered} {token : Nat} {declaration : CopyClass} :
    d.copyClass? g token = some declaration ↔
      ∃ name, g.terminal? token = some (.copy name) ∧ d.copy.get? name = some declaration := by
  rw [Draft.copyClass?]
  split
  next name named => simp [named]
  next other =>
    simp only [reduceCtorEq, false_iff, not_exists, not_and]
    exact fun name named => absurd named (other name)

namespace Vocabulary

def enclosed (classes : Nat → Option CopyClass) (term : Term) (word : String) : List String :=
  match term.value, classes term.token with
  | .words _, some declaration => [declaration.opening, word, declaration.closing]
  | _, _ => [word]

/-- The words of a program with every placeholder enclosed. A span that is open goes on up to the word that closes it. -/
def delimited (v : Vocabulary) (classes : Nat → Option CopyClass) : (closing : Option String) → List String → List String
  | _, [] => []
  | some closing, word :: rest => word :: v.delimited classes (if word = closing then none else some closing) rest
  | none, word :: rest =>
    match v.openings.lookup word with
    | some (_, closing) => word :: v.delimited classes (some closing) rest
    | none =>
      match v.classify word with
      | .ok term => enclosed classes term word ++ v.delimited classes none rest
      | .error _ => word :: v.delimited classes none rest

variable {d : Draft} {g : Numbered} {devices : OrderedMap String String} {word : String} {token : Nat}

theorem of_fixed (found : (ofGrammar d g devices).fixed.lookup word = some token) :
    g.terminal? token = some (.fixed word) := by
  obtain ⟨⟨terminal, other⟩, member, entry⟩ := List.mem_filterMap.mp (mem_of_lookup found)
  split at entry
  next text number same =>
    cases same
    cases entry
    exact Numbered.mem_numberedTerminals.mp (List.mem_reverse.mp member)
  · cases entry

theorem of_values {place : Nat} (found : (ofGrammar d g devices).values.lookup word = some (token, place)) :
    ∃ name vocabulary, g.terminal? token = some (.extensible name) ∧ d.extensible.get? name = some vocabulary ∧
      vocabulary[place]? = some word := by
  obtain ⟨⟨terminal, other⟩, member, entry⟩ := List.mem_flatMap.mp (mem_of_lookup found)
  split at entry
  next name number same =>
    cases same
    obtain ⟨⟨value, position⟩, inside, equal⟩ := List.mem_map.mp (List.mem_reverse.mp entry)
    cases equal
    have placed := List.mk_mem_zipIdx_iff_getElem?.mp inside
    cases declared : d.extensible.get? name with
    | none => simp [declared] at placed
    | some vocabulary => exact ⟨name, vocabulary, Numbered.mem_numberedTerminals.mp (List.mem_reverse.mp member), declared, by simpa [declared] using placed⟩
  · cases entry

theorem of_openings {closing : String}
    (found : (ofGrammar d g devices).openings.lookup word = some (token, closing)) :
    ∃ declaration, d.copyClass? g token = some declaration ∧ declaration.opening = word ∧ declaration.closing = closing := by
  obtain ⟨⟨terminal, other⟩, member, entry⟩ := List.mem_filterMap.mp (mem_of_lookup found)
  split at entry
  next name number same =>
    cases same
    obtain ⟨declaration, declared, equal⟩ := Option.map_eq_some_iff.mp entry
    cases equal
    exact ⟨declaration, Draft.copyClass?_eq_some_iff.mpr ⟨name, Numbered.mem_numberedTerminals.mp (List.mem_reverse.mp member), declared⟩, rfl, rfl⟩
  · cases entry

theorem of_placeholders (found : (ofGrammar d g devices).placeholders.lookup word = some token) :
    ∃ declaration, d.copyClass? g token = some declaration ∧ word ∈ declaration.placeholders := by
  obtain ⟨⟨terminal, other⟩, member, entry⟩ := List.mem_flatMap.mp (mem_of_lookup found)
  split at entry
  next name number same =>
    cases same
    cases declared : d.copy.get? name with
    | none => simp [declared] at entry
    | some declaration =>
      rw [declared] at entry
      obtain ⟨_, inside, equal⟩ := List.mem_map.mp entry
      cases equal
      exact ⟨declaration, Draft.copyClass?_eq_some_iff.mpr ⟨name, Numbered.mem_numberedTerminals.mp (List.mem_reverse.mp member), declared⟩, inside⟩
  · cases entry

theorem spells_of_copyClass? {declaration : CopyClass} (known : d.copyClass? g token = some declaration)
    (content : List String) :
    d.Spells g ⟨token, .words content⟩ (declaration.opening :: content ++ [declaration.closing]) := by
  obtain ⟨name, named, declared⟩ := Draft.copyClass?_eq_some_iff.mp known
  exact .span named declared

theorem spells_of_classify {term : Term} (read : (ofGrammar d g devices).classify word = .ok term) :
    d.Spells g term (enclosed (d.copyClass? g) term word) := by
  rw [classify] at read
  split at read
  next token found =>
    cases read
    exact .fixed (of_fixed found)
  next =>
    split at read
    next token place found =>
      cases read
      obtain ⟨name, vocabulary, named, declared, placed⟩ := of_values found
      exact .value named declared placed
    next =>
      split at read
      next token found =>
        cases read
        obtain ⟨declaration, known, _⟩ := of_placeholders found
        simp only [enclosed, known]
        exact spells_of_copyClass? known [word]
      next => cases read

theorem missingDevice_of_empty {v : Vocabulary} (joined : v.devices = ∅) (last : Option Nat) (word : String) :
    v.missingDevice last word = .ok [] := by
  simp [missingDevice, joined]

theorem dropDevices_of_empty {v : Vocabulary} (joined : v.devices = ∅) (program : List ProgramWord) :
    v.dropDevices program = program := by
  have absorbed : v.absorb = fun before word => word :: before := by
    funext before word
    cases word <;> simp [absorb, ProgramWord.word?, joined]
  rw [dropDevices, absorbed]
  simp

private theorem termsFrom_close {v : Vocabulary} {start : OpenSpan} {last : Option Nat} {rest : List String}
    {terms : List Term} (read : v.termsFrom (some start) last (start.closing :: rest) = .ok terms) :
    ∃ later, v.termsFrom none (some start.token) rest = .ok later ∧ terms = ⟨start.token, .words start.content⟩ :: later := by
  rw [termsFrom, if_pos rfl] at read
  cases result : v.termsFrom none (some start.token) rest with
  | error fault => simp [result, bind, Except.bind] at read
  | ok later =>
    simp only [result, bind, Except.bind, pure, Except.pure, Except.ok.injEq] at read
    exact ⟨later, rfl, read.symm⟩

private theorem termsFrom_word {v : Vocabulary} (joined : v.devices = ∅) {last : Option Nat} {rest : List String}
    {terms : List Term} (unopened : v.openings.lookup word = none) (read : v.termsFrom none last (word :: rest) = .ok terms) :
    ∃ term later, v.classify word = .ok term ∧ v.termsFrom none (some term.token) rest = .ok later ∧ terms = term :: later := by
  rw [termsFrom, unopened, missingDevice_of_empty joined] at read
  cases here : v.classify word with
  | error fault => simp [here, bind, Except.bind] at read
  | ok term =>
    cases result : v.termsFrom none (some term.token) rest with
    | error fault => simp [here, result, bind, Except.bind] at read
    | ok later =>
      simp only [here, result, bind, Except.bind, pure, Except.pure, Except.ok.injEq] at read
      exact ⟨term, later, rfl, result, read.symm⟩

/-- The terms of words stand for the words, with every placeholder enclosed. -/
theorem spells_of_termsFrom {span : Option OpenSpan} {last : Option Nat} {words : List String} {terms : List Term}
    (opened : ∀ start ∈ span, ∃ declaration, d.copyClass? g start.token = some declaration ∧
      declaration.opening = start.opening ∧ declaration.closing = start.closing)
    (read : (ofGrammar d g ∅).termsFrom span last words = .ok terms) :
    ∃ parts, List.Forall₂ (d.Spells g) terms parts ∧ parts.flatten =
      (span.elim [] fun start => start.opening :: start.content) ++
        (ofGrammar d g ∅).delimited (d.copyClass? g) (span.map OpenSpan.closing) words := by
  induction words generalizing span last terms with
  | nil =>
    cases span with
    | none =>
      cases read
      exact ⟨[], .nil, rfl⟩
    | some start => cases read
  | cons word rest ih =>
    cases span with
    | some start =>
      by_cases closed : word = start.closing
      · subst closed
        obtain ⟨declaration, known, begins, ends⟩ := opened start rfl
        obtain ⟨later, behind, rfl⟩ := termsFrom_close read
        obtain ⟨parts, spelled, flat⟩ := ih (by simp) behind
        refine ⟨_, .cons (spells_of_copyClass? known start.content) spelled, ?_⟩
        simp [delimited, flat, begins, ends]
      · rw [termsFrom, if_neg closed] at read
        obtain ⟨parts, spelled, flat⟩ := ih (by simpa using opened) read
        refine ⟨parts, spelled, ?_⟩
        simp [delimited, flat, closed]
    | none =>
      cases found : (ofGrammar d g ∅).openings.lookup word with
      | some opening =>
        obtain ⟨token, closing⟩ := opening
        rw [termsFrom, found] at read
        obtain ⟨parts, spelled, flat⟩ := ih (by simpa using of_openings found) read
        refine ⟨parts, spelled, ?_⟩
        simp [delimited, flat, found]
      | none =>
        obtain ⟨term, later, here, behind, rfl⟩ := termsFrom_word rfl found read
        obtain ⟨parts, spelled, flat⟩ := ih (by simp) behind
        refine ⟨_, .cons (spells_of_classify here) spelled, ?_⟩
        simp [delimited, flat, found, here]

end Vocabulary

end CommandLang
