import CommandLang.Proofs.Verification

/-! Writing programs in the three directions. Whether a program can be written, and what is wrong with it if not, is
decided by its terms and their parse alone. Vectors that were not cut short tell the terms that were written, so
programs come back alike from all directions. -/

namespace CommandLang

theorem Automaton.parse_outcome (a : Automaton) (order : Order) (leaves : List Leaf) :
    (a.parse order leaves).map (fun _ => ()) = (a.parse .bottomUp leaves).map fun _ => () := by
  cases order with
  | bottomUp => rfl
  | topDown =>
    simp only [parse]
    cases a.parseBottomUp leaves <;> rfl

namespace Codec

variable {c : Codec} {g : Grammar} {devices : OrderedMap String String} {sentence words : List String} {program : String}
  {v : ActionVectors} {leaves : List Leaf} {slots : List Slot} {term : Term}

theorem slots_outcome (c : Codec) (leaves : List Leaf) :
    (c.slots leaves).map (fun _ => ()) = (c.automaton.parse .bottomUp leaves).map fun _ => () := by
  rw [Codec.slots]
  split
  next order _ =>
    rw [← c.automaton.parse_outcome order]
    cases c.automaton.parse order leaves <;> rfl
  next => cases c.automaton.parse .bottomUp leaves <;> rfl

/-- Writing a program fails with its terms or with their parse, and with nothing else. -/
theorem encode_outcome (c : Codec) (sentence : List String) (program : String) :
    (c.encode sentence program).map (fun _ => ()) =
      (c.vocabulary.terms program).mapError .vocabulary >>= fun terms =>
        ((c.automaton.parse .bottomUp (terms.map (c.leaf sentence))).mapError .parse).map fun _ => () := by
  rw [encode]
  cases c.vocabulary.terms program with
  | error fault => rfl
  | ok terms =>
    have same := c.slots_outcome (terms.map (c.leaf sentence))
    simp only [Except.mapError, bind, Except.bind]
    cases written : c.slots (terms.map (c.leaf sentence)) with
    | error fault =>
      rw [written] at same
      rw [map_eq_error.mp same.symm]
      rfl
    | ok slots =>
      rw [written] at same
      obtain ⟨events, parsed, _⟩ := map_eq_ok.mp same.symm
      rw [parsed]
      rfl

/-- The bounds of a span are in order and fit their channels, whether or not the span was found. -/
theorem locate_bounds (c : Codec) (wide : 2 ≤ c.config.maxInputLength) (sentence words : List String) :
    1 ≤ (c.locate sentence words).1 ∧ (c.locate sentence words).1 ≤ (c.locate sentence words).2 ∧
      (c.locate sentence words).2 < c.config.maxInputLength := by
  rw [locate]
  split
  · dsimp only
    omega
  next nonempty =>
    have positive := List.length_pos_iff.mpr (fun empty => nonempty (List.isEmpty_iff.mpr empty))
    split
    · split
      · dsimp only
        omega
      · dsimp only
        omega
    · dsimp only
      omega

theorem two_le_of_sound {config : CodecConfig} (sound : config.fault? = none) : 2 ≤ config.maxInputLength := by
  rw [CodecConfig.fault?] at sound
  split at sound
  · cases sound
  · split at sound
    · cases sound
    · omega

theorem pos_of_sound {config : CodecConfig} (sound : config.fault? = none) {length : Nat}
    (width : config.maxLength = some length) : 0 < length := by
  refine Nat.pos_of_ne_zero fun zero => ?_
  simp [CodecConfig.fault?, width, zero] at sound

/-- What words of 32 bits keep of a term can be written, if the term carries what its terminal asks for, and it is the
whole term if the vocabularies are not too large. -/
theorem holds_wrapped (covers : c.Covers g devices) (wide : 2 ≤ c.config.maxInputLength)
    (inputs : c.config.maxInputLength ≤ 2 ^ 32) (sentence : List String) (term : Term)
    (fits : c.automaton.payloadFits (c.leaf sentence term) = true) :
    c.Holds (c.leaf sentence term).wrapped ∧ c.automaton.payloadFits (c.leaf sentence term).wrapped = true ∧
      ((∀ channel ∈ c.values, channel.vocabulary.length ≤ 2 ^ 32) → (c.leaf sentence term).wrapped = c.leaf sentence term) := by
  obtain ⟨terminal, named, fit⟩ := (Grammar.payloadFits_iff covers.table.grammar).mp fits
  have named' := covers.table.grammar ▸ named
  obtain ⟨token, value⟩ := term
  cases value with
  | none =>
    simp only [Codec.leaf] at named' fits fit ⊢
    cases fit
    exact ⟨.fixed (covers.tokenChannel?_fixed named'), fits, fun _ => rfl⟩
  | index place =>
    simp only [Codec.leaf] at named named' fit ⊢
    cases fit with
    | @extensible name vocabulary _ declared inside =>
      obtain ⟨number, known, _⟩ := covers.exists_values named' declared
      refine ⟨.value known (Nat.mod_lt _ (by decide)), (Grammar.payloadFits_iff covers.table.grammar).mpr
        ⟨_, named, .extensible declared (Nat.lt_of_le_of_lt (Nat.mod_le _ _) inside)⟩, fun vocabularies => ?_⟩
      have small := Nat.lt_of_lt_of_le inside (vocabularies _ (List.mem_of_getElem? known))
      rw [Leaf.wrapped, Payload.wrapped, Nat.mod_eq_of_lt small]
  | words words =>
    obtain ⟨above, ordered, near⟩ := c.locate_bounds wide sentence words
    simp only [Codec.leaf] at named' fits fit ⊢
    have small := Nat.lt_of_lt_of_le near inputs
    have whole : (Payload.span (c.locate sentence words).1 (c.locate sentence words).2).wrapped =
        .span (c.locate sentence words).1 (c.locate sentence words).2 := by
      rw [Payload.wrapped, Nat.mod_eq_of_lt small, Nat.mod_eq_of_lt (Nat.lt_of_le_of_lt ordered small)]
    rw [Leaf.wrapped, whole]
    cases fit with
    | @copy name =>
      obtain ⟨declaration, declared⟩ := Grammar.copy_of_mem_terminals (Grammar.terminal?_number.mp named').1
      obtain ⟨number, known, _⟩ := covers.exists_copies named' declared
      exact ⟨.copy known above ordered small, fits, fun _ => rfl⟩

theorem holds_leaf (covers : c.Covers g devices) (wide : 2 ≤ c.config.maxInputLength)
    (inputs : c.config.maxInputLength ≤ 2 ^ 32) (vocabularies : ∀ channel ∈ c.values, channel.vocabulary.length ≤ 2 ^ 32)
    (sentence : List String) (term : Term) (fits : c.automaton.payloadFits (c.leaf sentence term) = true) :
    c.Holds (c.leaf sentence term) := by
  obtain ⟨holds, _, whole⟩ := holds_wrapped covers wide inputs sentence term fits
  exact whole vocabularies ▸ holds

/-- The leaves of a program come back from its vectors, wherever its spans were put. -/
theorem leaves_of_encode (covers : c.Covers g devices) (sound : c.config.fault? = none)
    (inputs : c.config.maxInputLength ≤ 2 ^ 32) (actions : c.actionCount ≤ 2 ^ 32)
    (vocabularies : ∀ channel ∈ c.values, channel.vocabulary.length ≤ 2 ^ 32)
    (encoded : c.encode sentence program = .ok v) (whole : v.truncated = false) :
    ∃ terms, c.vocabulary.terms program = .ok terms ∧
      c.leaves v = .ok ((terms.map (c.leaf sentence)).map Leaf.zeroBased) ∧
      ∀ term ∈ terms, c.Holds (c.leaf sentence term) := by
  obtain ⟨terms, read, _⟩ := bind_eq_ok.mp encoded
  have read := mapError_eq_ok.mp read
  obtain ⟨slots, written, rfl⟩ := encode_eq_ok read encoded whole
  have fits := (slots_eq_ok covers written).1
  have holds : ∀ term ∈ terms, c.Holds (c.leaf sentence term) := fun term member =>
    holds_leaf covers (two_le_of_sound sound) inputs vocabularies sentence term (fits _ (List.mem_map_of_mem member))
  exact ⟨terms, read, leaves_layOut covers actions (List.forall_mem_map.mpr holds) written, holds⟩

theorem encode_error_iff {other : Codec} (outcomes : (c.encode sentence program).map (fun _ => ()) =
    (other.encode sentence program).map fun _ => ()) (fault : CodecError) :
    c.encode sentence program = .error fault ↔ other.encode sentence program = .error fault := by
  rw [← @map_eq_error _ _ _ _ (fun _ => ()), outcomes, map_eq_error]

theorem truncated_of_unlimited (unlimited : c.config.maxLength = none) (encoded : c.encode sentence program = .ok v) :
    v.truncated = false := by
  obtain ⟨terms, _, encoded⟩ := bind_eq_ok.mp encoded
  obtain ⟨slots, _, encoded⟩ := bind_eq_ok.mp encoded
  rw [unlimited] at encoded
  rw [← Except.ok.inj encoded]
  rfl

/-- Vectors that were not cut short pass the check and tell the leaves that were written, with bounds of spans that are
one less and lose nothing by it. Codecs that differ in their direction alone fail on the same programs with the same
fault, and what they write is read as one program with any sentence. -/
theorem reads_back_in_every_direction {language : Language} {config : CodecConfig}
    (assembled : ofLanguage language config = .ok c) (inputs : config.maxInputLength ≤ 2 ^ 32)
    (actions : c.actionCount ≤ 2 ^ 32) (vocabularies : ∀ channel ∈ c.values, channel.vocabulary.length ≤ 2 ^ 32)
    (sentence : List String) (program : String) :
    (∀ v, c.encode sentence program = .ok v → v.truncated = false → c.verify v = .ok () ∧
      ∃ terms, c.vocabulary.terms program = .ok terms ∧
        c.leaves v = .ok ((terms.map (c.leaf sentence)).map Leaf.zeroBased) ∧
        ∀ term ∈ terms, (c.leaf sentence term).zeroBased.oneBased = c.leaf sentence term) ∧
    ∀ direction other, ofLanguage language { config with direction } = .ok other → config.maxLength = none →
      (∀ fault, c.encode sentence program = .error fault ↔ other.encode sentence program = .error fault) ∧
      (other.actionCount ≤ 2 ^ 32 → ∀ v w, c.encode sentence program = .ok v → other.encode sentence program = .ok w →
        ∀ input, ∃ words, c.decode input v = .ok words ∧ other.decode input w = .ok words) := by
  obtain ⟨g, covers, rfl, sound, _⟩ := covers_of_ofLanguage assembled
  constructor
  · intro v encoded whole
    obtain ⟨terms, read, leaves, holds⟩ := leaves_of_encode covers sound inputs actions vocabularies encoded whole
    exact ⟨map_eq_ok.mpr ⟨_, leaves, rfl⟩, terms, read, leaves, fun term member => (holds term member).oneBased_zeroBased⟩
  · intro direction other assembled' unlimited
    obtain ⟨g', covers', configured, sound', _⟩ := covers_of_ofLanguage assembled'
    have same := eq_of_ofLanguage assembled assembled' rfl
    have terms : other.vocabulary = c.vocabulary := by rw [same]
    have written : other.leaf = c.leaf := by rw [same]; rfl
    constructor
    · apply encode_error_iff
      rw [encode_outcome, encode_outcome, terms, written, same]
    · intro actions' v w encoded encoded' input
      have whole := truncated_of_unlimited unlimited encoded
      have whole' := truncated_of_unlimited (by rw [configured]; exact unlimited) encoded'
      obtain ⟨parts, read, leaves, holds⟩ := leaves_of_encode covers sound inputs actions vocabularies encoded whole
      obtain ⟨parts', read', leaves', _⟩ := leaves_of_encode covers' (by rw [configured]; exact sound')
        (by rw [configured]; exact inputs) actions' (by rw [same]; exact vocabularies) encoded' whole'
      rw [terms, read] at read'
      obtain rfl := Except.ok.inj read'
      rw [written] at leaves'
      obtain ⟨words, spelled⟩ := exists_program covers input (payloadFits_of_leaves covers leaves)
      have here : c.decodeStrictly input v = .ok words := spelled c.config v leaves
      have there : other.decodeStrictly input w = .ok words := by
        rw [same] at leaves' ⊢
        exact spelled _ w leaves'
      exact ⟨words, by rw [decode, here], by rw [decode, there]⟩

theorem reads_back_in_every_direction_errand : ∃ c other, ofLanguage errandLanguage errandConfig = .ok c ∧
    ofLanguage errandLanguage { errandConfig with direction := .linear } = .ok other ∧ ∃ v w,
      c.encode ["say", "hello"] "send it to ben < hello there >" = .ok v ∧
      other.encode ["say", "hello"] "send it to ben < hello there >" = .ok w ∧ c.verify v = .ok () ∧
      ∀ input, ∃ words, c.decode input v = .ok words ∧ other.decode input w = .ok words := by
  have checked : (ofLanguage errandLanguage errandConfig).toOption.map (fun c => (c.actionCount, c.values,
      (c.encode ["say", "hello"] "send it to ben < hello there >").toOption.map ActionVectors.truncated)) =
      some (9, [⟨"name", 5, ["anna", "ben"]⟩], some false) := by decide +kernel
  have checked' : (ofLanguage errandLanguage { errandConfig with direction := .linear }).toOption.map (fun other =>
      (other.actionCount,
        (other.encode ["say", "hello"] "send it to ben < hello there >").toOption.map ActionVectors.truncated)) =
      some (7, some false) := by decide +kernel
  obtain ⟨c, assembled, checked⟩ := Option.map_eq_some_iff.mp checked
  obtain ⟨other, assembled', checked'⟩ := Option.map_eq_some_iff.mp checked'
  simp only [Prod.mk.injEq] at checked checked'
  obtain ⟨actions, values, written⟩ := checked
  obtain ⟨actions', written'⟩ := checked'
  obtain ⟨v, encoded, whole⟩ := Option.map_eq_some_iff.mp written
  obtain ⟨w, encoded', _⟩ := Option.map_eq_some_iff.mp written'
  have assembled := Grammar.eq_ok_of_toOption assembled
  have assembled' := Grammar.eq_ok_of_toOption assembled'
  have encoded := Grammar.eq_ok_of_toOption encoded
  have encoded' := Grammar.eq_ok_of_toOption encoded'
  obtain ⟨back, alike⟩ := reads_back_in_every_direction assembled (by decide) (by rw [actions]; decide)
    (by rw [values]; decide) ["say", "hello"] "send it to ben < hello there >"
  exact ⟨c, other, assembled, assembled', v, w, encoded, encoded', (back v encoded whole).1,
    (alike .linear other assembled' rfl).2 (by rw [actions']; decide) v w encoded encoded'⟩

end Codec

end CommandLang
