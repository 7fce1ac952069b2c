import CommandLang.Proofs.Layout
import Mathlib.Data.List.Infix

/-! Writing a program and reading it again. Where no device words stand apart from their functions, a program comes
back word by word from its vectors, if its spans are found in the sentence; a placeholder comes back as the span
it stood for. -/

namespace CommandLang

/-- A span stands in a sentence at a position and at none before it. -/
def FirstAt (span sentence : List String) (position : Nat) : Prop :=
  span <+: sentence.drop position ∧ ∀ earlier < position, ¬ span <+: sentence.drop earlier

instance (span sentence : List String) (position : Nat) : Decidable (FirstAt span sentence position) :=
  inferInstanceAs (Decidable (_ ∧ _))

theorem firstOccurrence_eq_some {span sentence : List String} {position : Nat} (nonempty : span ≠ [])
    (first : FirstAt span sentence position) : firstOccurrence span sentence = some position := by
  induction sentence generalizing position with
  | nil => simp [FirstAt, nonempty] at first
  | cons word rest ih =>
    obtain ⟨here, before⟩ := first
    rw [firstOccurrence]
    cases position with
    | zero => simpa [← List.isPrefixOf_iff_prefix] using here
    | succ position =>
      have absent := before 0 (Nat.succ_pos _)
      rw [List.drop_zero, ← List.isPrefixOf_iff_prefix] at absent
      have later := ih ⟨here, fun earlier below => before (earlier + 1) (Nat.succ_lt_succ below)⟩
      simp [absent, later]

namespace Codec

variable {c : Codec} {g : Grammar} {devices : OrderedMap String String} {sentence words : List String} {position : Nat}

theorem locate_of_firstAt (nonempty : words ≠ []) (first : FirstAt words sentence position)
    (near : position + words.length < c.config.maxInputLength) :
    c.locate sentence words = (position + 1, position + words.length) := by
  simp [locate, nonempty, firstOccurrence_eq_some nonempty first, near]

theorem slice_of_firstAt (nonempty : words ≠ []) (first : FirstAt words sentence position) :
    slice sentence position (position + words.length - 1) = words := by
  have positive := List.length_pos_iff.mpr nonempty
  have width : position + words.length - 1 + 1 - position = words.length := by omega
  rw [slice, List.drop_take, width]
  exact (List.prefix_iff_eq_take.mp first.1).symm

/-- The span of a term, if it has one, stands in the sentence where its bounds can be written. -/
def Locates (c : Codec) (sentence : List String) (term : Term) : Prop :=
  ∀ words, term.value = .words words →
    words ≠ [] ∧ ∃ position, FirstAt words sentence position ∧ position + words.length < c.config.maxInputLength

theorem tokenName_fixed {n : Numbered} {token : Nat} {text : String}
    (named : n.terminal? token = some (.fixed text)) : n.tokenName token = text := by
  have above := (Numbered.bounds_of_terminal? named).1
  have uncontrolled : Token.controlNames[token]? = none := List.getElem?_eq_none above
  simp [Numbered.tokenName, uncontrolled, named, Terminal.name]

/-- A term without a span can be written, and what comes back is spelled as the term, whatever the sentence. -/
theorem spell_spanless (covers : c.Covers g devices) (vocabularies : ∀ channel ∈ c.values, channel.vocabulary.length ≤ 2 ^ 32)
    {term : Term} {text : List String} (spells : g.Spells g.number term text) (spanless : ∀ content, term.value ≠ .words content) :
    c.Holds (c.leaf sentence term) ∧ ∀ input position,
      c.spell input position (c.leaf sentence term).zeroBased = .ok (text.map .word) := by
  cases spells with
  | @fixed token text named =>
    have bare := covers.tokenChannel?_fixed named
    refine ⟨.fixed bare, fun input position => ?_⟩
    simp [Codec.leaf, Leaf.zeroBased, Payload.zeroBased, spell, bare, covers.table.grammar, tokenName_fixed named]
  | @value token place name word vocabulary named declared placed =>
    obtain ⟨number, known, own⟩ := covers.exists_values named declared
    have inside := (List.getElem?_eq_some_iff.mp placed).1
    have bound := vocabularies _ (List.mem_of_getElem? known)
    refine ⟨.value known (Nat.lt_of_lt_of_le inside bound), fun input position => ?_⟩
    simp [Codec.leaf, Leaf.zeroBased, Payload.zeroBased, spell, own, known, placed]
  | span => exact absurd rfl (spanless _)

/-- A term that is found can be written, and what comes back is spelled as the term. -/
theorem spell_leaf (covers : c.Covers g devices) (inputs : c.config.maxInputLength ≤ 2 ^ 32)
    (vocabularies : ∀ channel ∈ c.values, channel.vocabulary.length ≤ 2 ^ 32) {term : Term} {text : List String}
    (spells : g.Spells g.number term text) (found : c.Locates sentence term) :
    c.Holds (c.leaf sentence term) ∧ ∀ position,
      c.spell (some sentence) position (c.leaf sentence term).zeroBased = .ok (text.map .word) := by
  by_cases spanless : ∀ content, term.value ≠ .words content
  · exact (spell_spanless covers vocabularies spells spanless).imp_right fun spelled => spelled (some sentence)
  · cases spells with
    | fixed => simp at spanless
    | value => simp at spanless
    | @span token name declaration content named declared =>
      obtain ⟨number, known, own⟩ := covers.exists_copies named declared
      obtain ⟨nonempty, position, first, near⟩ := found content rfl
      have positive := List.length_pos_iff.mpr nonempty
      have bounds := locate_of_firstAt nonempty first near
      refine ⟨?_, fun _ => ?_⟩
      · simp only [Codec.leaf, bounds]
        exact .copy known (by omega) (by omega) (by omega)
      · simp [Codec.leaf, bounds, Leaf.zeroBased, Payload.zeroBased, spell, own, known, slice_of_firstAt nonempty first]

theorem mapM_spell {input : Option (List String)} {leaves : List Leaf} {parts : List (List String)} (first : Nat)
    (spelled : List.Forall₂ (fun leaf text => ∀ position, c.spell input position leaf = .ok (text.map .word)) leaves parts) :
    (leaves.zipIdx first).mapM (fun (leaf, position) => c.spell input position leaf) =
      .ok (parts.map (List.map .word)) := by
  induction spelled generalizing first with
  | nil => rfl
  | cons here _ ih => simp [List.zipIdx_cons, List.mapM_cons, here, ih, bind, Except.bind, pure, Except.pure]

theorem truncate_of_whole {maxLength : Option Nat} {slots : List Slot}
    (whole : (truncate maxLength slots).2 = false) : truncate maxLength slots = (slots, false) := by
  simp only [truncate] at whole ⊢
  split
  · split
    next length less => simp [less] at whole
    next => rfl
  · rfl

theorem encode_eq_ok {program : String} {vectors : ActionVectors} {terms : List Term}
    (read : c.vocabulary.terms program = .ok terms) (encoded : c.encode sentence program = .ok vectors)
    (whole : vectors.truncated = false) :
    ∃ slots, c.slots (terms.map (c.leaf sentence)) = .ok slots ∧ vectors = c.layOut (slots ++ [.eos]) false := by
  rw [encode] at encoded
  cases written : c.slots (terms.map (c.leaf sentence)) with
  | error fault => simp [read, written, bind, Except.bind, Except.mapError] at encoded
  | ok slots =>
    simp only [read, written, bind, Except.bind, Except.mapError, pure, Except.pure, Except.ok.injEq] at encoded
    subst encoded
    rw [truncate_of_whole whole]
    exact ⟨slots, rfl, rfl⟩

private theorem copyClass?_of_copy_eq_empty (d : Draft) (spelled : g.copy = ∅) :
    d.copyClass? g.number = g.copyClass? g.number := by
  funext token
  simp only [Draft.copyClass?]
  split
  next name named =>
    obtain ⟨declaration, declared⟩ := Grammar.copy_of_mem_terminals (Grammar.terminal?_number.mp named).1
    simp [spelled] at declared
  next => rfl

private theorem spell_leaves (covers : c.Covers g devices) (inputs : c.config.maxInputLength ≤ 2 ^ 32)
    (vocabularies : ∀ channel ∈ c.values, channel.vocabulary.length ≤ 2 ^ 32) {terms : List Term}
    {parts : List (List String)} (spells : List.Forall₂ (g.Spells g.number) terms parts)
    (found : ∀ term ∈ terms, c.Locates sentence term) :
    (∀ leaf ∈ terms.map (c.leaf sentence), c.Holds leaf) ∧
      List.Forall₂ (fun leaf text => ∀ position, c.spell (some sentence) position leaf = .ok (text.map .word))
        ((terms.map (c.leaf sentence)).map Leaf.zeroBased) parts := by
  induction spells with
  | nil => exact ⟨by simp, .nil⟩
  | cons first _ ih =>
    obtain ⟨here, others⟩ := List.forall_mem_cons.mp found
    obtain ⟨holds, spelled⟩ := spell_leaf covers inputs vocabularies first here
    obtain ⟨later, rest⟩ := ih others
    exact ⟨List.forall_mem_cons.mpr ⟨holds, later⟩, .cons spelled rest⟩

/-- A program comes back word by word from its vectors, and every placeholder as the span it stands for: if the
vectors are whole, the numbers fit 32 bits, and every span is found in the sentence where its bounds can be written. -/
theorem decode_encode {language : Language} {config : CodecConfig} {sentence : List String} {program : String}
    {terms : List Term} {vectors : ActionVectors} (assembled : ofLanguage language config = .ok c)
    (joined : language.splitDevices = false) (inputs : config.maxInputLength ≤ 2 ^ 32) (actions : c.actionCount ≤ 2 ^ 32)
    (vocabularies : ∀ channel ∈ c.values, channel.vocabulary.length ≤ 2 ^ 32)
    (read : c.vocabulary.terms program = .ok terms) (encoded : c.encode sentence program = .ok vectors)
    (whole : vectors.truncated = false) (found : ∀ term ∈ terms, c.Locates sentence term) :
    c.decode (some sentence) vectors = .ok
      ((c.vocabulary.delimited (language.grammar.copyClass? c.automaton.grammar) none (Text.words program)).map .word) := by
  obtain ⟨g, covers, rfl, _, spelled⟩ := ofLanguage_covers joined assembled
  obtain ⟨slots, written, rfl⟩ := encode_eq_ok read encoded whole
  have classes : language.grammar.copyClass? c.automaton.grammar = g.copyClass? g.number := by
    rw [covers.table.grammar]
    rcases spelled with rfl | empty
    · rfl
    · exact copyClass?_of_copy_eq_empty _ empty
  rw [covers.vocabulary] at read
  obtain ⟨parts, spells, flat⟩ := Vocabulary.spells_of_termsFrom (by simp) read
  obtain ⟨holds, spelled⟩ := spell_leaves covers inputs vocabularies spells found
  have leaves := leaves_layOut covers actions holds written
  have words := mapM_spell 0 spelled
  have joined : c.vocabulary.devices = ∅ := by rw [covers.vocabulary]; rfl
  simp only [decode, decodeStrictly, leaves, words, bind, Except.bind, pure, Except.pure,
    Vocabulary.dropDevices_of_empty joined]
  rw [classes, covers.vocabulary, ← List.map_flatten, flat]
  rfl

def errandLanguage : Language := ⟨Grammar.errand, ∅, false⟩

def errandConfig : CodecConfig := ⟨false, none, 60, .derivation .topDown, false⟩

theorem decode_encode_errand : ∃ c, ofLanguage errandLanguage errandConfig = .ok c ∧
    ∃ vectors, c.encode ["say", "it", "and", "hello", "there"] "send it to ben < hello there >" = .ok vectors ∧
      c.decode (some ["say", "it", "and", "hello", "there"]) vectors =
        .ok (["send", "<", "it", ">", "to", "ben", "<", "hello", "there", ">"].map .word) := by
  have sizes : (ofLanguage errandLanguage errandConfig).toOption.map (fun c => (c.config, c.actionCount, c.values)) =
      some (errandConfig, 9, [⟨"name", 5, ["anna", "ben"]⟩]) := by decide +kernel
  have texts : (ofLanguage errandLanguage errandConfig).toOption.map (fun c =>
      ((c.vocabulary.terms "send it to ben < hello there >").toOption,
        c.vocabulary.delimited (errandLanguage.grammar.copyClass? c.automaton.grammar) none
          (Text.words "send it to ben < hello there >"))) =
      some (some [⟨3, .none⟩, ⟨6, .words ["it"]⟩, ⟨4, .none⟩, ⟨5, .index 1⟩, ⟨6, .words ["hello", "there"]⟩],
        ["send", "<", "it", ">", "to", "ben", "<", "hello", "there", ">"]) := by decide +kernel
  have written : (ofLanguage errandLanguage errandConfig).toOption.bind (fun c =>
      (c.encode ["say", "it", "and", "hello", "there"] "send it to ben < hello there >").toOption.map
        ActionVectors.truncated) = some false := by decide +kernel
  obtain ⟨c, assembled, sizes⟩ := Option.map_eq_some_iff.mp sizes
  rw [assembled] at texts written
  simp only [Option.map_some, Option.some.injEq, Prod.mk.injEq] at sizes texts
  obtain ⟨config, actions, values⟩ := sizes
  obtain ⟨read, delimited⟩ := texts
  obtain ⟨vectors, encoded, whole⟩ := Option.map_eq_some_iff.mp written
  have assembled := Grammar.eq_ok_of_toOption assembled
  have encoded := Grammar.eq_ok_of_toOption encoded
  refine ⟨c, assembled, vectors, encoded, ?_⟩
  have found : ∀ term ∈ [⟨3, .none⟩, ⟨6, .words ["it"]⟩, ⟨4, .none⟩, ⟨5, .index 1⟩, ⟨6, .words ["hello", "there"]⟩],
      c.Locates ["say", "it", "and", "hello", "there"] term := by
    intro term member words content
    have either : words = ["it"] ∨ words = ["hello", "there"] := by
      simp only [List.mem_cons, List.not_mem_nil, or_false] at member
      rcases member with rfl | rfl | rfl | rfl | rfl <;> simp_all
    rw [config]
    rcases either with rfl | rfl
    · exact ⟨by decide, 1, by decide, by decide⟩
    · exact ⟨by decide, 3, by decide, by decide⟩
  have back := decode_encode assembled rfl (by decide) (by rw [actions]; decide) (by rw [values]; decide)
    (Grammar.eq_ok_of_toOption read) encoded whole found
  rw [back, delimited]

end Codec

end CommandLang
