import CommandLang.Proofs.Directions

/-! What the slots of a program hold. An action before the last one is not a control, a place lies in the vocabulary of the
channel, and the bounds of a span are in order and among the values of theirs. -/

namespace CommandLang

namespace Codec

variable {c : Codec} {g : Grammar} {devices : OrderedMap String String} {sentence : List String} {slots : List Slot}

/-- What goes with a channel: a place in its vocabulary, or bounds of a span that its values can tell. -/
structure Carries (c : Codec) (channel : Option Channel) (payload : Payload) : Prop where
  placed : ∀ number, channel = some (.value number) →
    ∃ known place, c.values[number]? = some known ∧ payload = .index place ∧ place < known.vocabulary.length
  bounded : ∀ number, channel = some (.copy number) →
    ∃ first last, payload = .span first last ∧ 1 ≤ first ∧ first ≤ last ∧ last < c.config.maxInputLength

/-- What a slot before the last one holds: an action that is not a control, and what goes with its channel. -/
structure Occupies (c : Codec) (slot : Slot) : Prop where
  numbered : Token.controls ≤ slot.action.toNat ∧ slot.action.toNat < c.actionCount
  carries : c.Carries (c.channel? slot.action) slot.payload

theorem carries_none {payload : Payload} : c.Carries none payload := by
  constructor <;> (intro number own; cases own)

private theorem carries_leaf (covers : c.Covers g devices) (wide : 2 ≤ c.config.maxInputLength) {term : Term}
    (fits : c.automaton.payloadFits (c.leaf sentence term) = true) :
    c.Carries (c.tokenChannel? (c.leaf sentence term).token) (c.leaf sentence term).payload := by
  obtain ⟨terminal, named, fit⟩ := (Grammar.payloadFits_iff covers.table.grammar).mp fits
  rw [covers.table.grammar] at named
  obtain ⟨token, value⟩ := term
  cases value with
  | none =>
    simp only [Codec.leaf] at named fit ⊢
    cases fit
    rw [covers.tokenChannel?_fixed named]
    exact carries_none
  | index place =>
    simp only [Codec.leaf] at named fit ⊢
    cases fit with
    | @extensible name vocabulary _ declared inside =>
      obtain ⟨number, known, own⟩ := covers.exists_values named declared
      refine ⟨fun other same => ?_, fun other same => ?_⟩
      · obtain rfl := Channel.value.inj (Option.some.inj (own.symm.trans same))
        exact ⟨_, place, known, rfl, inside⟩
      · cases own.symm.trans same
  | words words =>
    obtain ⟨above, ordered, small⟩ := c.locate_bounds wide sentence words
    simp only [Codec.leaf] at named fit ⊢
    cases fit with
    | @copy name =>
      obtain ⟨declaration, declared⟩ := Grammar.copy_of_mem_terminals (Grammar.terminal?_number.mp named).1
      obtain ⟨number, _, own⟩ := covers.exists_copies named declared
      refine ⟨fun other same => ?_, fun other same => ⟨_, _, rfl, above, ordered, small⟩⟩
      cases own.symm.trans same

private theorem occupies_ofNat (small : c.actionCount ≤ 2 ^ 32) {action : Nat} {channel : Option Channel} {payload : Payload}
    (above : Token.controls ≤ action) (inside : action < c.actionCount) (reads : c.channel? (UInt32.ofNat action) = channel)
    (carries : c.Carries channel payload) : c.Occupies ⟨UInt32.ofNat action, payload⟩ := by
  have number : (UInt32.ofNat action).toNat = action :=
    UInt32.toNat_ofNat_of_lt' (by simpa [UInt32.size] using Nat.lt_of_lt_of_le inside small)
  exact ⟨by rw [number]; exact ⟨above, inside⟩, reads ▸ carries⟩

private theorem occupies_of_event (small : c.actionCount ≤ 2 ^ 32) (derived : c.isLinear = false) {event : Event}
    (ruled : ∀ rule, event = .reduce rule → rule < c.ruleCount)
    (carries : ∀ leaf, event = .shift leaf → c.Carries (c.tokenChannel? leaf.token) leaf.payload)
    {slot : Slot} (taken : c.slot? event = some slot) : c.Occupies slot := by
  cases event with
  | accept => cases taken
  | reduce rule =>
    obtain rfl := Option.some.inj taken
    have inside := ruled rule rfl
    have kind := kind_reduce small derived inside
    have count := actionCount_of_derivation derived
    simp only [valueBase, copyBase] at count
    exact occupies_ofNat small (Nat.le_add_right _ _) (by omega) (by simp only [channel?, kind]) carries_none
  | shift leaf =>
    have held := carries leaf rfl
    rw [slot?_shift] at taken
    obtain ⟨channel, own, rfl⟩ := Option.map_eq_some_iff.mp taken
    rw [own] at held
    obtain ⟨above, inside⟩ := actionOf_bounds derived own
    exact occupies_ofNat small above inside (channel?_actionOf small derived own) held

theorem carries_of_slots (covers : c.Covers g devices) (wide : 2 ≤ c.config.maxInputLength) {terms : List Term}
    (written : c.slots (terms.map (c.leaf sentence)) = .ok slots) :
    ∀ leaf ∈ terms.map (c.leaf sentence), c.Carries (c.tokenChannel? leaf.token) leaf.payload := by
  have fits := (slots_eq_ok covers written).1
  intro leaf member
  obtain ⟨term, _, rfl⟩ := List.mem_map.mp member
  exact carries_leaf covers wide (fits _ member)

theorem occupies_of_slots (covers : c.Covers g devices) (wide : 2 ≤ c.config.maxInputLength) (small : c.actionCount ≤ 2 ^ 32)
    {terms : List Term} (written : c.slots (terms.map (c.leaf sentence)) = .ok slots) : ∀ slot ∈ slots, c.Occupies slot := by
  have carries := carries_of_slots covers wide written
  obtain ⟨fits, forest, tree, leaves, derivation, tokens⟩ := slots_eq_ok covers written
  cases direction : c.config.direction with
  | derivation order =>
    have derived : c.isLinear = false := by simp [isLinear, direction]
    obtain rfl := derivation order direction
    intro slot member
    obtain ⟨event, inside, taken⟩ := List.mem_filterMap.mp member
    have listed := tree.mem_listing inside
    refine occupies_of_event small derived ?_ ?_ taken
    · rintro rule rfl
      rcases listed with ⟨_, _, same⟩ | ⟨_, below, same⟩
      · cases same
      · cases same
        exact below
    · rintro leaf rfl
      rcases listed with ⟨_, below, same⟩ | ⟨_, _, same⟩
      · cases same
        exact carries leaf (leaves ▸ below)
      · cases same
  | linear =>
    have linear : c.isLinear = true := by simp [isLinear, direction]
    obtain rfl := tokens direction
    intro slot member
    obtain ⟨leaf, inside, rfl⟩ := List.mem_map.mp member
    obtain ⟨above, counted, kind⟩ := kind_leaf covers small linear (fits leaf inside)
    exact occupies_ofNat small above counted (by simp only [channel?, kind]) (carries leaf inside)

end Codec

end CommandLang
