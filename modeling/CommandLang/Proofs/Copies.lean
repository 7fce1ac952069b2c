import CommandLang.Proofs.Devices
import CommandLang.Proofs.Verification
import CommandLang.Schema.CatalogText

/-! What a program shows of its sentence. The leaves of vectors that pass the check are written one by one, a copied span
between the words that open and close its class. Then the devices before functions are left out, wherever they stand: a
span loses words to this only if one of its words is the device of the next. -/

namespace CommandLang

theorem Language.deviceWords_joined {language : Language} (joined : language.splitDevices = false) : language.deviceWords = ∅ := by
  simp [deviceWords, joined]

namespace Codec

variable {c : Codec} {g : Grammar} {devices : OrderedMap String String} {v : ActionVectors} {leaves : List Leaf}

theorem Covers.vocabulary_devices (covers : c.Covers g devices) : c.vocabulary.devices = devices := by
  rw [covers.vocabulary]
  rfl

inductive Writes (c : Codec) (sentence : List String) : Leaf → List String → Prop where
  | fixed {token : Nat} (bare : c.tokenChannel? token = none) :
      Writes c sentence ⟨token, .none⟩ [c.automaton.grammar.tokenName token]
  | value {channel : ValueChannel} {place : Nat} {word : String} (declared : channel ∈ c.values)
      (placed : channel.vocabulary[place]? = some word) : Writes c sentence ⟨channel.token, .index place⟩ [word]
  | copied {channel : CopyChannel} {first last : Nat} (declared : channel ∈ c.copies) :
      Writes c sentence ⟨channel.token, .span first last⟩
        (channel.opening :: slice sentence first last ++ [channel.closing])

/-- A leaf that carries what its token asks for can be written, and this is how it is spelled wherever it stands. -/
theorem exists_writes (covers : c.Covers g devices) (sentence : List String) {leaf : Leaf}
    (fits : c.automaton.payloadFits leaf = true) :
    ∃ text, c.Writes sentence leaf text ∧ ∀ position, c.spell (some sentence) position leaf = .ok (text.map .word) := by
  obtain ⟨token, payload⟩ := leaf
  obtain ⟨terminal, named, fit⟩ := (Grammar.payloadFits_iff covers.table.grammar).mp fits
  rw [covers.table.grammar] at named
  cases fit with
  | fixed =>
    have bare := covers.tokenChannel?_fixed named
    exact ⟨_, .fixed bare, fun position => by simp only [spell, bare]; rfl⟩
  | @extensible name vocabulary place declared inside =>
    obtain ⟨number, known, channel⟩ := covers.exists_values named declared
    have placed : vocabulary[place]? = some vocabulary[place] := List.getElem?_eq_getElem inside
    exact ⟨_, .value (List.mem_of_getElem? known) placed, fun position => by simp [spell, channel, known, inside]⟩
  | @copy name first last ordered =>
    obtain ⟨declaration, declared⟩ := Grammar.copy_of_mem_terminals (Grammar.terminal?_number.mp named).1
    obtain ⟨number, known, channel⟩ := covers.exists_copies named declared
    exact ⟨_, .copied (List.mem_of_getElem? known), fun position => by simp [spell, channel, known]⟩

/-- A program is what its leaves are spelled as, without the devices directly before their functions. -/
theorem decode_of_spelled {input : Option (List String)} {texts : List (List String)} (read : c.leaves v = .ok leaves)
    (spelled : List.Forall₂ (fun leaf text => ∀ position, c.spell input position leaf = .ok (text.map .word)) leaves texts) :
    c.decode input v = .ok ((withoutDevices c.vocabulary.devices texts.flatten).map .word) := by
  have strictly : c.decodeStrictly input v = .ok (c.vocabulary.dropDevices (texts.flatten.map .word)) := by
    rw [List.map_flatten]
    exact bind_eq_ok.mpr ⟨leaves, read, bind_eq_ok.mpr ⟨_, mapM_spell 0 spelled, rfl⟩⟩
  rw [decode, strictly, Vocabulary.dropDevices_words]

private theorem exists_texts_of_leaves (covers : c.Covers g devices) (sentence : List String)
    (fits : ∀ leaf ∈ leaves, c.automaton.payloadFits leaf = true) :
    ∃ texts, List.Forall₂ (fun leaf text => c.Writes sentence leaf text ∧
      ∀ position, c.spell (some sentence) position leaf = .ok (text.map .word)) leaves texts := by
  induction leaves with
  | nil => exact ⟨[], .nil⟩
  | cons leaf rest ih =>
    obtain ⟨here, later⟩ := List.forall_mem_cons.mp fits
    obtain ⟨text, written⟩ := exists_writes covers sentence here
    obtain ⟨texts, others⟩ := ih later
    exact ⟨text :: texts, .cons written others⟩

/-- The leaves of vectors that pass the check are written one by one, and make the program without the devices directly
before their functions. -/
theorem decode_of_leaves (covers : c.Covers g devices) (sentence : List String) (read : c.leaves v = .ok leaves) :
    ∃ texts, List.Forall₂ (c.Writes sentence) leaves texts ∧
      c.decode (some sentence) v = .ok ((withoutDevices devices texts.flatten).map .word) := by
  obtain ⟨texts, written⟩ := exists_texts_of_leaves covers sentence (payloadFits_of_leaves covers read)
  exact ⟨texts, written.imp fun _ _ both => both.1,
    covers.vocabulary_devices ▸ decode_of_spelled read (written.imp fun _ _ both => both.2)⟩

/-- Every leaf of vectors that pass the check has its part in the program. The part has only words of the leaf in it, and
has all of them, in particular those of a copied span with the words around it, unless one of them is the device of the
word behind it. Where functions are spelled without their devices this is never so. -/
theorem copies_stay_whole {language : Language} {config : CodecConfig} (assembled : ofLanguage language config = .ok c)
    (passed : c.verify v = .ok ()) (sentence : List String) :
    ∃ leaves texts parts, c.leaves v = .ok leaves ∧ List.Forall₂ (c.Writes sentence) leaves texts ∧
      c.decode (some sentence) v = .ok (parts.flatten.map .word) ∧
      parts.flatten = withoutDevices language.deviceWords texts.flatten ∧
      List.Forall₂ (fun text part => part.Sublist text ∧ (Firm language.deviceWords text → part = text)) texts parts ∧
      (language.splitDevices = false → ∀ text, Firm language.deviceWords text) := by
  obtain ⟨g, covers, _⟩ := covers_of_ofLanguage assembled
  obtain ⟨leaves, read, _⟩ := map_eq_ok.mp passed
  obtain ⟨texts, written, decoded⟩ := decode_of_leaves covers sentence read
  obtain ⟨parts, flat, related⟩ := exists_parts language.deviceWords texts
  refine ⟨leaves, texts, parts, read, written, flat ▸ decoded, flat, related, fun joined text => ?_⟩
  rw [Language.deviceWords_joined joined]
  exact firm_empty text

/-- The codec for the language of a catalog with these lines. -/
def ofLines? (lines : List String) (splitDevices : Bool) (valueCount : Nat) (config : CodecConfig) : Option Codec :=
  (Catalog.ofLines lines).toOption.bind fun catalog =>
    (catalog.language splitDevices valueCount).toOption.bind fun language => (ofLanguage language config).toOption

theorem exists_language_of_lines {lines : List String} {splitDevices : Bool} {valueCount : Nat} {config : CodecConfig}
    (found : ofLines? lines splitDevices valueCount config = some c) :
    ∃ catalog language, Catalog.ofLines lines = .ok catalog ∧ catalog.language splitDevices valueCount = .ok language ∧
      ofLanguage language config = .ok c := by
  obtain ⟨catalog, read, found⟩ := Option.bind_eq_some_iff.mp found
  obtain ⟨language, compiled, assembled⟩ := Option.bind_eq_some_iff.mp found
  exact ⟨catalog, language, Grammar.eq_ok_of_toOption read, Grammar.eq_ok_of_toOption compiled, Grammar.eq_ok_of_toOption assembled⟩

/-- An answer that quotes the first two words of the sentence. -/
def answerVectors : ActionVectors where
  actions := [3, 5, 20, 1]
  values := ∅
  spans := .ofList [("QUOTED_STRING", ⟨[0, 0, 1, 0], [0, 0, 2, 0]⟩)]
  length := 4
  truncated := false

private theorem exists_answering : ∃ catalog language c, Catalog.ofLines ["action @b.say"] = .ok catalog ∧
    catalog.language true 1 = .ok language ∧ ofLanguage language linearConfig = .ok c ∧
    c.leaves answerVectors = .ok [⟨3, .none⟩, ⟨5, .none⟩, ⟨20, .span 0 1⟩] ∧
    c.decode (some ["@@b", "@b.say"]) answerVectors = .ok (["bookkeeping", "answer", "\"", "@b.say", "\""].map .word) := by
  have checked : (ofLines? ["action @b.say"] true 1 linearConfig).map (fun c =>
      ((c.leaves answerVectors).toOption, (c.decode (some ["@@b", "@b.say"]) answerVectors).toOption)) =
      some (some [⟨3, .none⟩, ⟨5, .none⟩, ⟨20, .span 0 1⟩],
        some (["bookkeeping", "answer", "\"", "@b.say", "\""].map .word)) := by decide +kernel
  obtain ⟨c, found, checked⟩ := Option.map_eq_some_iff.mp checked
  obtain ⟨read, decoded⟩ := Prod.mk.inj checked
  obtain ⟨catalog, language, lines, compiled, assembled⟩ := exists_language_of_lines found
  exact ⟨catalog, language, c, lines, compiled, assembled, Grammar.eq_ok_of_toOption read, Grammar.eq_ok_of_toOption decoded⟩

theorem copies_stay_whole_answer : ∃ language c, ofLanguage language linearConfig = .ok c ∧ c.verify answerVectors = .ok () ∧
    ∃ leaves texts parts, c.leaves answerVectors = .ok leaves ∧ List.Forall₂ (c.Writes ["@@b", "@b.say"]) leaves texts ∧
      c.decode (some ["@@b", "@b.say"]) answerVectors = .ok (parts.flatten.map .word) ∧
      List.Forall₂ (fun text part => part.Sublist text ∧ (Firm language.deviceWords text → part = text)) texts parts := by
  obtain ⟨_, language, c, _, _, assembled, read, _⟩ := exists_answering
  have passed : c.verify answerVectors = .ok () := map_eq_ok.mpr ⟨_, read, rfl⟩
  obtain ⟨leaves, texts, parts, found, written, decoded, _, related, _⟩ :=
    copies_stay_whole assembled passed ["@@b", "@b.say"]
  exact ⟨language, c, assembled, passed, leaves, texts, parts, found, written, decoded, related⟩

/-- Two words are cut out of a sentence, but only one of them comes back. -/
theorem copies_torn : ∃ catalog language c, Catalog.ofLines ["action @b.say"] = .ok catalog ∧
    catalog.language true 1 = .ok language ∧ ofLanguage language linearConfig = .ok c ∧ c.verify answerVectors = .ok () ∧
    c.leaves answerVectors = .ok [⟨3, .none⟩, ⟨5, .none⟩, ⟨20, .span 0 1⟩] ∧
    slice ["@@b", "@b.say"] 0 1 = ["@@b", "@b.say"] ∧
    c.decode (some ["@@b", "@b.say"]) answerVectors = .ok (["bookkeeping", "answer", "\"", "@b.say", "\""].map .word) := by
  obtain ⟨catalog, language, c, lines, compiled, assembled, read, decoded⟩ := exists_answering
  exact ⟨catalog, language, c, lines, compiled, assembled, map_eq_ok.mpr ⟨_, read, rfl⟩, read, rfl, decoded⟩

end Codec

end CommandLang
