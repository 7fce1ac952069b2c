import CommandLang.Proofs.Construction
import CommandLang.Proofs.Terms
import CommandLang.Vector.Codec
import Mathlib.Data.List.Nodup

/-! The channels of a codec. Every declared class of the grammar has one channel, which its token and its name both
determine, and fixed terminals have none. The kind of an action is the range that its number lies in, so the number of
an action is read as the action it was made for. -/

namespace CommandLang

/-- A codec over the automaton of a grammar, with the devices of function words. Its channels are the declared
classes of this grammar. -/
structure Codec.Covers (c : Codec) (g : Grammar) (devices : OrderedMap String String) : Prop where
  table : c.automaton.Tabulates g.number
  vocabulary : c.vocabulary = .ofGrammar g.toDraft g.number devices
  copies_nodup : c.copies.Nodup
  values_nodup : c.values.Nodup
  mem_copies : ∀ {channel}, channel ∈ c.copies ↔ g.number.terminal? channel.token = some (.copy channel.name) ∧
    ∃ declaration, g.copy.get? channel.name = some declaration ∧
      declaration.opening = channel.opening ∧ declaration.closing = channel.closing
  mem_values : ∀ {channel}, channel ∈ c.values ↔ g.number.terminal? channel.token = some (.extensible channel.name) ∧
    g.extensible.get? channel.name = some channel.vocabulary

namespace Codec

variable {c : Codec} {g : Grammar} {devices : OrderedMap String String} {number token : Nat}

private theorem nodup_zipIdx {α : Type} {items : List α} (first : Nat) : (items.zipIdx first).Nodup := by
  refine List.Nodup.of_map Prod.snd ?_
  rw [List.zipIdx_map_snd]
  exact List.nodup_range'

private theorem nodup_filterMap_zipIdx {α β : Type} {items : List α} {f : α × Nat → Option β} (source : β → α × Nat)
    (back : ∀ pair b, f pair = some b → source b = pair) (first : Nat) : ((items.zipIdx first).filterMap f).Nodup := by
  refine List.Nodup.filterMap ?_ (nodup_zipIdx first)
  intro pair other b left right
  exact (back pair b left).symm.trans (back other b right)

private theorem nodup_copyChannels (d : Draft) (n : Numbered) : (copyChannels d n).Nodup := by
  refine nodup_filterMap_zipIdx (fun channel => (.copy channel.name, channel.token)) ?_ _
  rintro ⟨terminal, token⟩ channel found
  cases terminal with
  | copy name =>
    obtain ⟨_, _, rfl⟩ := Option.map_eq_some_iff.mp found
    rfl
  | _ => cases found

private theorem nodup_valueChannels (d : Draft) (n : Numbered) : (valueChannels d n).Nodup := by
  refine nodup_filterMap_zipIdx (fun channel => (.extensible channel.name, channel.token)) ?_ _
  rintro ⟨terminal, token⟩ channel found
  cases terminal with
  | extensible name =>
    obtain ⟨_, _, rfl⟩ := Option.map_eq_some_iff.mp found
    rfl
  | _ => cases found

private theorem mem_copyChannels {d : Draft} {n : Numbered} {channel : CopyChannel} :
    channel ∈ copyChannels d n ↔ n.terminal? channel.token = some (.copy channel.name) ∧
      ∃ declaration, d.copy.get? channel.name = some declaration ∧
        declaration.opening = channel.opening ∧ declaration.closing = channel.closing := by
  simp only [copyChannels, List.mem_filterMap, Prod.exists, n.mem_numberedTerminals]
  constructor
  · rintro ⟨terminal, token, named, entry⟩
    cases terminal with
    | copy name =>
      obtain ⟨declaration, declared, rfl⟩ := Option.map_eq_some_iff.mp entry
      exact ⟨named, declaration, declared, rfl, rfl⟩
    | _ => cases entry
  · rintro ⟨named, declaration, declared, begins, ends⟩
    exact ⟨.copy channel.name, channel.token, named, by simp [declared, begins, ends]⟩

private theorem mem_valueChannels {d : Draft} {n : Numbered} {channel : ValueChannel} :
    channel ∈ valueChannels d n ↔ n.terminal? channel.token = some (.extensible channel.name) ∧
      d.extensible.get? channel.name = some channel.vocabulary := by
  simp only [valueChannels, List.mem_filterMap, Prod.exists, n.mem_numberedTerminals]
  constructor
  · rintro ⟨terminal, token, named, entry⟩
    cases terminal with
    | extensible name =>
      obtain ⟨vocabulary, declared, rfl⟩ := Option.map_eq_some_iff.mp entry
      exact ⟨named, declared⟩
    | _ => cases entry
  · rintro ⟨named, declared⟩
    exact ⟨.extensible channel.name, channel.token, named, by simp [declared]⟩

theorem assemble_covers (language : Language) (config : CodecConfig) {a : Automaton} (built : g.automaton = .ok a) :
    (assemble language config g a).Covers g language.deviceWords := by
  have table := Grammar.automaton_tabulates built
  have same := table.grammar
  constructor
  · exact table
  · simp [assemble, same]
  · exact (nodup_copyChannels _ _).perm (sortBy_perm _ _).symm
  · exact (nodup_valueChannels _ _).perm (sortBy_perm _ _).symm
  · simp only [assemble, mem_sortBy, mem_copyChannels, same, implies_true]
  · simp only [assemble, mem_sortBy, mem_valueChannels, same, implies_true]

private theorem copy_addRules (d : Draft) (rules : List (String × Rhs)) : (d.addRules rules).copy = d.copy := by
  induction rules generalizing d with
  | nil => rfl
  | cons rule rest ih => exact ih _

private theorem copy_spellOut {source : Grammar} (spelled : source.spellOut = .ok g) : g.copy = ∅ := by
  rw [Grammar.spellOut, Draft.build] at spelled
  split at spelled
  · cases spelled
    exact copy_addRules _ _
  · cases spelled

/-- The codec of a language is assembled over the automaton of its grammar, or of the spelled out form of this grammar. -/
theorem ofLanguage_eq_ok {language : Language} {config : CodecConfig} (assembled : ofLanguage language config = .ok c) :
    config.fault? = none ∧ ∃ g a,
      (if config.flatten then language.grammar.spellOut else .ok language.grammar) = .ok g ∧
      g.automaton = .ok a ∧ c = assemble language config g a := by
  rw [ofLanguage] at assembled
  split at assembled
  · cases assembled
  next sound =>
    have covered : ∀ {g : Grammar}, (do
        let automaton ← g.automaton.mapError CodecError.build
        return assemble language config g automaton) = .ok c →
          ∃ a, g.automaton = .ok a ∧ c = assemble language config g a := by
      intro g whole
      cases built : g.automaton with
      | error fault => simp [built, Except.mapError, bind, Except.bind] at whole
      | ok a =>
        simp only [built, Except.mapError, bind, Except.bind, pure, Except.pure, Except.ok.injEq] at whole
        exact ⟨a, rfl, whole.symm⟩
    refine ⟨sound, ?_⟩
    split at assembled
    next flat =>
      rw [if_pos flat]
      cases spelled : language.grammar.spellOut with
      | error fault => simp [spelled, Except.mapError, bind, Except.bind] at assembled
      | ok g =>
        simp only [spelled, Except.mapError, bind, Except.bind] at assembled
        exact ⟨g, (covered assembled).imp fun _ both => ⟨rfl, both⟩⟩
    next plain =>
      rw [if_neg plain]
      exact ⟨language.grammar, (covered assembled).imp fun _ both => ⟨rfl, both⟩⟩

/-- Two codecs of a language that spell classes alike differ in their configurations alone. -/
theorem eq_of_ofLanguage {language : Language} {config config' : CodecConfig} {other : Codec}
    (assembled : ofLanguage language config = .ok c) (assembled' : ofLanguage language config' = .ok other)
    (alike : config'.flatten = config.flatten) : other = { c with config := config' } := by
  obtain ⟨_, g, a, source, built, rfl⟩ := ofLanguage_eq_ok assembled
  obtain ⟨_, g', a', source', built', rfl⟩ := ofLanguage_eq_ok assembled'
  rw [alike] at source'
  obtain rfl := Except.ok.inj (source.symm.trans source')
  obtain rfl := Except.ok.inj (built.symm.trans built')
  rfl

/-- The codec of a language covers the grammar of the language or its spelled out form. -/
theorem covers_of_ofLanguage {language : Language} {config : CodecConfig} (assembled : ofLanguage language config = .ok c) :
    ∃ g, c.Covers g language.deviceWords ∧ c.config = config ∧ config.fault? = none ∧
      (if config.flatten then language.grammar.spellOut else .ok language.grammar) = .ok g := by
  obtain ⟨sound, g, a, source, built, rfl⟩ := ofLanguage_eq_ok assembled
  exact ⟨g, assemble_covers language config built, rfl, sound, source⟩

/-- The codec of a language covers the grammar of the language or its spelled out form, which has no copy classes. -/
theorem ofLanguage_covers {language : Language} (joined : language.splitDevices = false) {config : CodecConfig}
    (assembled : ofLanguage language config = .ok c) : ∃ g, c.Covers g ∅ ∧ c.config = config ∧ config.fault? = none ∧
      (g = language.grammar ∨ g.copy = ∅) := by
  obtain ⟨g, covers, same, sound, source⟩ := covers_of_ofLanguage assembled
  have undivided : language.deviceWords = ∅ := by simp [Language.deviceWords, joined]
  refine ⟨g, undivided ▸ covers, same, sound, ?_⟩
  split at source
  · exact Or.inr (copy_spellOut source)
  · exact Or.inl (Except.ok.inj source).symm

theorem lt_of_tokenChannel?_copy (own : c.tokenChannel? token = some (.copy number)) : number < c.copies.length := by
  rw [tokenChannel?] at own
  split at own
  next other found =>
    cases own
    exact (List.findIdx?_eq_some_iff_getElem.mp found).1
  next => simp at own

theorem lt_of_tokenChannel?_value (own : c.tokenChannel? token = some (.value number)) : number < c.values.length := by
  rw [tokenChannel?] at own
  split at own
  · cases own
  next =>
    obtain ⟨other, found, same⟩ := Option.map_eq_some_iff.mp own
    cases same
    exact (List.findIdx?_eq_some_iff_getElem.mp found).1

namespace Covers

theorem copies_inj (covers : c.Covers g devices) {channel other : CopyChannel} (left : channel ∈ c.copies)
    (right : other ∈ c.copies) (same : channel.name = other.name ∨ channel.token = other.token) : channel = other := by
  obtain ⟨named, declaration, declared, begins, ends⟩ := covers.mem_copies.mp left
  obtain ⟨named', declaration', declared', begins', ends'⟩ := covers.mem_copies.mp right
  have names : channel.name = other.name := by
    rcases same with names | tokens
    · exact names
    · rw [tokens, named'] at named
      exact (Terminal.copy.inj (Option.some.inj named)).symm
  rw [names] at named declared
  obtain rfl := Option.some.inj (declared.symm.trans declared')
  have tokens := Grammar.terminal?_number_inj named named'
  cases channel
  cases other
  simp_all

theorem values_inj (covers : c.Covers g devices) {channel other : ValueChannel} (left : channel ∈ c.values)
    (right : other ∈ c.values) (same : channel.name = other.name ∨ channel.token = other.token) : channel = other := by
  obtain ⟨named, declared⟩ := covers.mem_values.mp left
  obtain ⟨named', declared'⟩ := covers.mem_values.mp right
  have names : channel.name = other.name := by
    rcases same with names | tokens
    · exact names
    · rw [tokens, named'] at named
      exact (Terminal.extensible.inj (Option.some.inj named)).symm
  rw [names] at named declared
  have vocabularies := Option.some.inj (declared.symm.trans declared')
  have tokens := Grammar.terminal?_number_inj named named'
  cases channel
  cases other
  simp_all

private theorem findIdx?_of_inj {α : Type} {items : List α} {f : α → Nat} (distinct : items.Nodup)
    (inj : ∀ a ∈ items, ∀ b ∈ items, f a = f b → a = b) {item : α} (found : items[number]? = some item) :
    items.findIdx? (fun other => f other = f item) = some number := by
  obtain ⟨inside, rfl⟩ := List.getElem?_eq_some_iff.mp found
  refine List.findIdx?_eq_some_iff_getElem.mpr ⟨inside, by simp, ?_⟩
  intro earlier before
  have apart : items[earlier] ≠ items[number] := fun equal =>
    absurd (distinct.getElem_inj_iff.mp equal) (by omega)
  simpa using fun equal => apart (inj _ (List.getElem_mem _) _ (List.getElem_mem _) equal)

theorem tokenChannel?_copy (covers : c.Covers g devices) {channel : CopyChannel} (found : c.copies[number]? = some channel) :
    c.tokenChannel? channel.token = some (.copy number) := by
  have first := findIdx?_of_inj covers.copies_nodup
    (fun a left b right same => covers.copies_inj left right (Or.inr same)) found
  simp [tokenChannel?, first]

private theorem findIdx?_copies_eq_none (covers : c.Covers g devices)
    (other : ∀ name, g.number.terminal? token ≠ some (.copy name)) : c.copies.findIdx? (·.token = token) = none := by
  rw [List.findIdx?_eq_none_iff]
  intro channel member
  have named := (covers.mem_copies.mp member).1
  simpa using fun equal : channel.token = token => other _ (equal ▸ named)

theorem tokenChannel?_value (covers : c.Covers g devices) {channel : ValueChannel} (found : c.values[number]? = some channel) :
    c.tokenChannel? channel.token = some (.value number) := by
  have named := (covers.mem_values.mp (List.mem_of_getElem? found)).1
  have first := findIdx?_of_inj covers.values_nodup
    (fun a left b right same => covers.values_inj left right (Or.inr same)) found
  have other : ∀ name, g.number.terminal? channel.token ≠ some (.copy name) := by simp [named]
  simp [tokenChannel?, findIdx?_copies_eq_none covers other, first]

theorem exists_copies (covers : c.Covers g devices) {name : String} {declaration : CopyClass}
    (named : g.number.terminal? token = some (.copy name)) (declared : g.copy.get? name = some declaration) :
    ∃ number, c.copies[number]? = some ⟨name, token, declaration.opening, declaration.closing⟩ ∧
      c.tokenChannel? token = some (.copy number) := by
  have member : ⟨name, token, declaration.opening, declaration.closing⟩ ∈ c.copies :=
    covers.mem_copies.mpr ⟨named, declaration, declared, rfl, rfl⟩
  obtain ⟨number, known⟩ := List.mem_iff_getElem?.mp member
  exact ⟨number, known, covers.tokenChannel?_copy known⟩

theorem exists_values (covers : c.Covers g devices) {name : String} {vocabulary : List String}
    (named : g.number.terminal? token = some (.extensible name)) (declared : g.extensible.get? name = some vocabulary) :
    ∃ number, c.values[number]? = some ⟨name, token, vocabulary⟩ ∧ c.tokenChannel? token = some (.value number) := by
  have member : ⟨name, token, vocabulary⟩ ∈ c.values := covers.mem_values.mpr ⟨named, declared⟩
  obtain ⟨number, known⟩ := List.mem_iff_getElem?.mp member
  exact ⟨number, known, covers.tokenChannel?_value known⟩

theorem tokenChannel?_fixed (covers : c.Covers g devices) {text : String}
    (named : g.number.terminal? token = some (.fixed text)) : c.tokenChannel? token = none := by
  have absent : c.values.findIdx? (·.token = token) = none := by
    rw [List.findIdx?_eq_none_iff]
    intro channel member
    have named' := (covers.mem_values.mp member).1
    simpa using fun equal : channel.token = token => by simp [equal, named] at named'
  have other : ∀ name, g.number.terminal? token ≠ some (.copy name) := by simp [named]
  simp [tokenChannel?, findIdx?_copies_eq_none covers other, absent]

end Covers

def Numbers (c : Codec) (number : Nat) : ActionKind → Prop
  | .pad => number = Token.pad
  | .eos => number = Token.eos
  | .start => number = Token.start
  | .reduce rule => c.isLinear = false ∧ rule < c.ruleCount ∧ number = Token.controls + rule
  | .copy place => c.isLinear = false ∧ place < c.copies.length ∧ number = c.copyBase + place
  | .value place => c.isLinear = false ∧ place < c.values.length ∧ number = c.valueBase + place
  | .token token => c.isLinear = true ∧ Token.controls ≤ token ∧ token < c.actionCount ∧ number = token
  | .invalid => c.actionCount ≤ number

/-- The action of a channel in a derivation. -/
def actionOf (c : Codec) : Channel → Nat
  | .copy number => c.copyBase + number
  | .value number => c.valueBase + number

section kinds

variable {action : UInt32} {rule : Nat}

theorem actionCount_of_derivation (derived : c.isLinear = false) : c.actionCount = c.valueBase + c.values.length := by
  simp [actionCount, derived]

theorem actionOf_bounds (derived : c.isLinear = false) {channel : Channel} (own : c.tokenChannel? token = some channel) :
    Token.controls ≤ c.actionOf channel ∧ c.actionOf channel < c.actionCount := by
  rw [actionCount_of_derivation derived]
  cases channel with
  | copy number =>
    have inside := lt_of_tokenChannel?_copy own
    simp only [actionOf, valueBase, copyBase]
    omega
  | value number =>
    have inside := lt_of_tokenChannel?_value own
    simp only [actionOf, valueBase, copyBase]
    omega

theorem controls_le_actionCount (c : Codec) : Token.controls ≤ c.actionCount := by
  rw [actionCount]
  split
  · exact Nat.le_add_right _ _
  · simp only [valueBase, copyBase]
    omega

theorem numbers_kind (c : Codec) (action : UInt32) : c.Numbers action.toNat (c.kind action) := by
  have above : action.toNat ≠ Token.pad → action.toNat ≠ Token.eos → action.toNat ≠ Token.start →
      Token.controls ≤ action.toNat := by
    simp only [Token.pad, Token.eos, Token.start, Token.controls]
    omega
  unfold kind
  dsimp only
  split_ifs with pad eos start linear token rule copy value
  · exact pad
  · exact eos
  · exact start
  · exact ⟨linear, above pad eos start, token, rfl⟩
  · exact Nat.le_of_not_lt token
  · have reached := above pad eos start
    simp only [copyBase] at rule
    exact ⟨Bool.eq_false_of_not_eq_true linear, by omega, by omega⟩
  · simp only [valueBase] at copy
    exact ⟨Bool.eq_false_of_not_eq_true linear, by omega, by omega⟩
  · have derived := Bool.eq_false_of_not_eq_true linear
    rw [actionCount_of_derivation derived] at value
    exact ⟨derived, by omega, by omega⟩
  · exact Nat.le_of_not_lt value

private theorem kind_of_numbers {kind : ActionKind} (range : c.Numbers action.toNat kind) : c.kind action = kind := by
  have pad : Token.pad = 0 := rfl
  have eos : Token.eos = 1 := rfl
  have start : Token.start = 2 := rfl
  have controls : Token.controls = 3 := rfl
  have copies : c.copyBase = Token.controls + c.ruleCount := rfl
  have values : c.valueBase = c.copyBase + c.copies.length := rfl
  have count : c.isLinear = false → c.actionCount = c.valueBase + c.values.length := actionCount_of_derivation
  have above := c.controls_le_actionCount
  rw [Codec.kind]
  cases kind with
  | pad => exact if_pos range
  | eos =>
    rw [if_neg (by rw [range]; decide)]
    exact if_pos range
  | start =>
    rw [if_neg (by rw [range]; decide), if_neg (by rw [range]; decide)]
    exact if_pos range
  | token token =>
    obtain ⟨linear, reached, inside, number⟩ := range
    rw [if_neg (by omega), if_neg (by omega), if_neg (by omega), if_pos linear, if_pos (by omega), number]
  | invalid =>
    have behind : ¬ action.toNat < c.actionCount := Nat.not_lt.mpr range
    rw [if_neg (by omega), if_neg (by omega), if_neg (by omega)]
    cases linear : c.isLinear with
    | true => exact if_neg behind
    | false =>
      have last := count linear
      rw [if_neg (by decide), if_neg (by omega), if_neg (by omega), if_neg behind]
  | reduce rule =>
    obtain ⟨derived, inside, number⟩ := range
    rw [if_neg (by omega), if_neg (by omega), if_neg (by omega), if_neg (by simp [derived]), if_pos (by omega), number,
      Nat.add_sub_cancel_left]
  | copy place =>
    obtain ⟨derived, inside, number⟩ := range
    rw [if_neg (by omega), if_neg (by omega), if_neg (by omega), if_neg (by simp [derived]), if_neg (by omega),
      if_pos (by omega), number, Nat.add_sub_cancel_left]
  | value place =>
    obtain ⟨derived, inside, number⟩ := range
    have last := count derived
    rw [if_neg (by omega), if_neg (by omega), if_neg (by omega), if_neg (by simp [derived]), if_neg (by omega),
      if_neg (by omega), if_pos (by omega), number, Nat.add_sub_cancel_left]

theorem kind_eq_iff {kind : ActionKind} : c.kind action = kind ↔ c.Numbers action.toNat kind :=
  ⟨fun same => same ▸ c.numbers_kind action, kind_of_numbers⟩

variable (small : c.actionCount ≤ 2 ^ 32)

include small

private theorem toNat_ofNat_of_lt_actionCount {action : Nat} (inside : action < c.actionCount) :
    (UInt32.ofNat action).toNat = action :=
  UInt32.toNat_ofNat_of_lt' (Nat.lt_of_lt_of_le inside small)

theorem kind_token (linear : c.isLinear = true) (above : Token.controls ≤ token) (inside : token < c.actionCount) :
    c.kind (UInt32.ofNat token) = .token token :=
  kind_eq_iff.mpr ⟨linear, above, inside, toNat_ofNat_of_lt_actionCount small inside⟩

variable (derived : c.isLinear = false)

include derived

theorem kind_reduce (inside : rule < c.ruleCount) : c.kind (UInt32.ofNat (Token.controls + rule)) = .reduce rule := by
  have count := actionCount_of_derivation derived
  simp only [valueBase, copyBase] at count
  exact kind_eq_iff.mpr ⟨derived, inside, toNat_ofNat_of_lt_actionCount small (by omega)⟩

theorem kind_copy (inside : number < c.copies.length) : c.kind (UInt32.ofNat (c.copyBase + number)) = .copy number := by
  have count := actionCount_of_derivation derived
  simp only [valueBase] at count
  exact kind_eq_iff.mpr ⟨derived, inside, toNat_ofNat_of_lt_actionCount small (by omega)⟩

theorem kind_value (inside : number < c.values.length) : c.kind (UInt32.ofNat (c.valueBase + number)) = .value number := by
  have count := actionCount_of_derivation derived
  exact kind_eq_iff.mpr ⟨derived, inside, toNat_ofNat_of_lt_actionCount small (by omega)⟩

theorem channel?_actionOf {channel : Channel} (own : c.tokenChannel? token = some channel) :
    c.channel? (UInt32.ofNat (c.actionOf channel)) = some channel := by
  cases channel with
  | copy number => simp only [channel?, actionOf, kind_copy small derived (lt_of_tokenChannel?_copy own)]
  | value number => simp only [channel?, actionOf, kind_value small derived (lt_of_tokenChannel?_value own)]

end kinds

end Codec

end CommandLang
