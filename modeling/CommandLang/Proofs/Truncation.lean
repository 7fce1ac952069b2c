import CommandLang.Proofs.Shape

/-! Vectors that were cut short. The events of a top-down derivation tell where it ends, even without the shifts of fixed
terminals: whatever is left out behind a place, what comes before it is not complete. So vectors without their last slots
are never read as another program. -/

namespace CommandLang

namespace Automaton

variable {a : Automaton} {order : Order} {stack : NumberedSymbols} {events : List Event} {event : Event} {position : Nat}

theorem supply_of_unfixed {token : Nat} (unfixed : a.grammar.isFixed token = false) (stack : NumberedSymbols) :
    a.grammar.supply (some token) stack = a.grammar.supply none stack := by
  induction stack with
  | nil => rfl
  | cons symbol rest ih =>
    cases symbol with
    | nonterminal number => rfl
    | terminal other =>
      rw [Numbered.supply, Numbered.supply, ih]
      cases fixed : a.grammar.isFixed other with
      | false => rfl
      | true =>
        have apart : token ≠ other := by
          rintro rfl
          cases unfixed.symm.trans fixed
        simp [apart]

/-- An event that is followed finds a symbol that the rules do not supply. -/
theorem supply_ne_nil_of_replayEvent {result : List Leaf × NumberedSymbols}
    (unfixed : ∀ leaf, event = .shift leaf → a.grammar.isFixed leaf.token = false)
    (followed : a.replayEvent order position event stack = .ok result) : (a.grammar.supply none stack).2 ≠ [] := by
  intro empty
  obtain ⟨fixed, supplied⟩ : ∃ fixed, a.grammar.supply none stack = (fixed, []) := ⟨_, Prod.ext rfl empty⟩
  cases event with
  | accept => cases followed
  | reduce rule =>
    obtain ⟨_, _, _, found, _⟩ := replayEvent_reduce_iff.mp followed
    cases supplied.symm.trans found
  | shift leaf =>
    obtain ⟨_, found, _⟩ := replayEvent_shift_iff.mp followed
    rw [supply_of_unfixed (unfixed leaf rfl)] at found
    cases supplied.symm.trans found

theorem replay_of_pending (closed : .accept ∉ events) {front : List Leaf} {remaining : NumberedSymbols}
    (followed : a.replayEvents order (order.arrange events.zipIdx) [.nonterminal a.grammar.start] = .ok (front, remaining))
    (pending : (a.grammar.supply none remaining).2 ≠ []) :
    a.replay order (events ++ [.accept]) = .error (.prematureAccept events.length) := by
  rw [replay, findIdx?_append_accept closed]
  cases order <;> simp_all [Order.arrange, bind, Except.bind]

/-- A top-down tree is not complete before any event that is not the shift of a fixed terminal. -/
theorem replay_of_cut {forest : Forest} {kept more : List Event} (tree : forest.Of a.grammar [.nonterminal a.grammar.start])
    (fits : ∀ leaf ∈ forest.leaves, a.payloadFits leaf = true)
    (thins : a.grammar.Thins (forest.listing .topDown) (kept ++ event :: more))
    (unfixed : ∀ leaf, event = .shift leaf → a.grammar.isFixed leaf.token = false) :
    a.replay .topDown (kept ++ [.accept]) = .error (.prematureAccept kept.length) := by
  have closed : .accept ∉ kept := fun member =>
    forest.accept_not_mem_listing .topDown (thins.mem (List.mem_append_left _ member))
  have settles := (unfolds_listing tree .topDown).settles fits thins (List.zipIdx_map_fst 0 (kept ++ event :: more))
  rw [List.zipIdx_append, List.zipIdx_cons] at settles
  obtain ⟨front, remaining, rest, followed, settles, _⟩ := settles_append.mp settles
  obtain ⟨_, _, _, here, _⟩ := settles_cons.mp settles
  exact replay_of_pending closed followed (supply_ne_nil_of_replayEvent unfixed here)

end Automaton

def Slot.wrapped (slot : Slot) : Slot := ⟨slot.action, slot.payload.wrapped⟩

@[simp] theorem Slot.wrapped_action (slot : Slot) : slot.wrapped.action = slot.action := rfl

namespace Codec

variable {c : Codec} {g : Grammar} {devices : OrderedMap String String} {sentence : List String} {events : List Event}

private theorem ofNat_mod (number : Nat) : UInt32.ofNat (number % 2 ^ 32) = UInt32.ofNat number := UInt32.ofNat_mod_size

private theorem placeEntry_wrapped (number : Nat) (slot : Slot) : c.placeEntry number slot.wrapped = c.placeEntry number slot := by
  obtain ⟨action, payload⟩ := slot
  simp only [placeEntry, Slot.wrapped]
  rcases c.channel? action with _ | _ | _ <;> cases payload <;> simp only [Payload.wrapped, ofNat_mod]

private theorem spanEntry_wrapped (number : Nat) (slot : Slot) : c.spanEntry number slot.wrapped = c.spanEntry number slot := by
  obtain ⟨action, payload⟩ := slot
  simp only [spanEntry, Slot.wrapped]
  rcases c.channel? action with _ | _ | _ <;> cases payload <;> simp only [Payload.wrapped, ofNat_mod]

/-- Vectors hold what words of 32 bits keep of their slots. -/
theorem layOut_wrapped (c : Codec) (slots : List Slot) (truncated : Bool) :
    c.layOut (slots.map Slot.wrapped) truncated = c.layOut slots truncated := by
  simp only [layOut, List.map_map, Function.comp_def, List.length_map, placeEntry_wrapped, spanEntry_wrapped,
    Slot.wrapped_action]

theorem slot?_wrapped (c : Codec) (event : Event) :
    c.slot? (event.mapLeaf Leaf.wrapped) = (c.slot? event).map Slot.wrapped := by
  cases event with
  | shift leaf =>
    rw [Event.mapLeaf, slot?_shift, slot?_shift, Option.map_map]
    rfl
  | _ => rfl

theorem filterMap_slot?_wrapped (c : Codec) (events : List Event) :
    (events.map (Event.mapLeaf Leaf.wrapped)).filterMap c.slot? = (events.filterMap c.slot?).map Slot.wrapped := by
  rw [List.filterMap_map, List.map_filterMap]
  exact List.filterMap_congr fun event _ => c.slot?_wrapped event

theorem kept_append (c : Codec) (events more : List Event) : c.kept (events ++ more) = c.kept events ++ c.kept more :=
  List.filterMap_append

theorem length_kept (c : Codec) (events : List Event) : (c.kept events).length = (events.filterMap c.slot?).length := by
  simp only [kept, List.length_filterMap_eq_countP, Option.isSome_map]

theorem unfixed_of_mem_kept (covers : c.Covers g devices) {event : Event} (member : event ∈ c.kept events) :
    ∀ leaf, event = .shift leaf → c.automaton.grammar.isFixed leaf.token = false := by
  rintro leaf rfl
  obtain ⟨source, _, mapped⟩ := List.mem_filterMap.mp member
  obtain ⟨slot, taken, same⟩ := Option.map_eq_some_iff.mp mapped
  cases source with
  | accept => cases same
  | reduce rule => cases same
  | shift before =>
    have unfixed := isFixed_of_slot? covers taken
    obtain rfl := Event.shift.inj same
    exact unfixed

/-- The first slots of a top-down derivation are read as a derivation that is accepted too early. -/
theorem leaves_of_cut (covers : c.Covers g devices) (small : c.actionCount ≤ 2 ^ 32)
    (direction : c.config.direction = .derivation .topDown) {forest : Forest}
    (tree : forest.Of c.automaton.grammar [.nonterminal c.automaton.grammar.start])
    (fits : ∀ leaf ∈ forest.leaves, c.automaton.payloadFits leaf = true) (holds : ∀ leaf ∈ forest.leaves, c.Holds leaf)
    {used left : List Slot} (slots : (forest.listing .topDown).filterMap c.slot? = used ++ left) (cut : left ≠ [])
    (truncated : Bool) : c.leaves (c.layOut (used ++ [.eos]) truncated) = .error (.replay (.prematureAccept used.length)) := by
  have derived : c.isLinear = false := by simp [isLinear, direction]
  obtain ⟨before, after, whole, rfl, rfl⟩ := List.filterMap_eq_append_iff.mp slots
  have thins := thins_listing covers .topDown tree fits holds
  rw [whole, kept_append] at thins
  obtain ⟨event, more, rest⟩ : ∃ event more, c.kept after = event :: more :=
    List.exists_cons_of_length_pos (c.length_kept after ▸ List.length_pos_iff.mpr cut)
  have replayed := Automaton.replay_of_cut (tree.map (f := Leaf.zeroBased) fun _ => rfl) (by simpa using fits_zeroBased fits)
    (rest ▸ thins) (unfixed_of_mem_kept covers (rest ▸ List.mem_cons_self ..))
  have admits : ∀ event ∈ before, c.Admits event := fun event member =>
    admits_listing .topDown tree holds event (whole ▸ List.mem_append_left _ member)
  obtain ⟨behind, actions⟩ := actions_layOut c (before.filterMap c.slot?) truncated
  have read := @eventsFrom_layOut c g _ _ truncated covers small derived [] before rfl admits behind
  simp only [List.nil_append, List.length_nil] at read
  rw [Codec.leaves, direction, actions]
  simp only [read, bind, Except.bind, replayed, Except.mapError, length_kept]

/-- The slots of a program that fill their vectors up, and one that accepts instead of the others. Where 32 bits do not
tell all words of a vocabulary, other leaves come back, but they have a tree of the same shape. -/
theorem leaves_of_truncated (covers : c.Covers g devices) (wide : 2 ≤ c.config.maxInputLength)
    (inputs : c.config.maxInputLength ≤ 2 ^ 32) (small : c.actionCount ≤ 2 ^ 32)
    (direction : c.config.direction = .derivation .topDown) {terms : List Term} {slots : List Slot}
    (written : c.slots (terms.map (c.leaf sentence)) = .ok slots) {count : Nat} (short : count < slots.length) :
    c.leaves (c.layOut (slots.take count ++ [.eos]) true) = .error (.replay (.prematureAccept count)) := by
  obtain ⟨fits, forest, tree, leaves, derivation, _⟩ := slots_eq_ok covers written
  obtain rfl := derivation .topDown direction
  have wrapped : ∀ leaf ∈ (forest.map Leaf.wrapped).leaves, c.Holds leaf ∧ c.automaton.payloadFits leaf = true := by
    intro leaf member
    rw [Forest.leaves_map, leaves] at member
    obtain ⟨_, inside, rfl⟩ := List.mem_map.mp member
    obtain ⟨term, _, rfl⟩ := List.mem_map.mp inside
    obtain ⟨holds, fit, _⟩ := holds_wrapped covers wide inputs sentence term (fits _ inside)
    exact ⟨holds, fit⟩
  generalize same : (forest.listing .topDown).filterMap c.slot? = slots at short ⊢
  have divided : ((forest.map Leaf.wrapped).listing .topDown).filterMap c.slot? =
      (slots.take count).map Slot.wrapped ++ (slots.drop count).map Slot.wrapped := by
    rw [Forest.listing_map, filterMap_slot?_wrapped, same, ← List.map_append, List.take_append_drop]
  have cut : (slots.drop count).map Slot.wrapped ≠ [] := by
    rw [← List.length_pos_iff, List.length_map, List.length_drop]
    omega
  have premature := leaves_of_cut covers small direction (tree.map (f := Leaf.wrapped) fun _ => rfl)
    (fun leaf member => (wrapped leaf member).2) (fun leaf member => (wrapped leaf member).1) divided cut true
  have eos : [Slot.eos] = [Slot.eos].map Slot.wrapped := rfl
  rw [eos, ← List.map_append, layOut_wrapped, List.length_map, List.length_take, Nat.min_eq_left (Nat.le_of_lt short)] at premature
  exact premature

/-- Top-down vectors that were cut short are never read as another program. The check finds that they are accepted
before their derivation is complete, where they were cut. Reading them fails likewise, or gives the empty program if
malformed vectors are to be read so. Actions and positions are words of 32 bits, and there may not be more of them than
these tell. -/
theorem truncated_premature {language : Language} {config : CodecConfig} {program : String} {v : ActionVectors} {length : Nat}
    (assembled : ofLanguage language config = .ok c) (inputs : config.maxInputLength ≤ 2 ^ 32)
    (actions : c.actionCount ≤ 2 ^ 32) (direction : config.direction = .derivation .topDown)
    (width : config.maxLength = some length) (encoded : c.encode sentence program = .ok v) (truncated : v.truncated = true) :
    c.verify v = .error (.replay (.prematureAccept (length - 1))) ∧
      ∀ input, c.decode input v =
        if config.ignoreErrors then .ok [] else .error (.replay (.prematureAccept (length - 1))) := by
  obtain ⟨g, covers, rfl, sound, _⟩ := covers_of_ofLanguage assembled
  obtain ⟨terms, slots, read, written, rfl⟩ := exists_slots_of_encode encoded
  have positive := pos_of_sound sound width
  rw [width, truncate_eq slots positive] at truncated ⊢
  split at truncated
  next short =>
    rw [if_pos short]
    have within : length - 1 < slots.length := by omega
    have premature := leaves_of_truncated covers (two_le_of_sound sound) inputs actions direction written within
    refine ⟨map_eq_error.mpr premature, fun input => ?_⟩
    have failed : c.decodeStrictly input (c.layOut (slots.take (length - 1) ++ [.eos]) true) =
        .error (.replay (.prematureAccept (length - 1))) := bind_eq_error.mpr (Or.inl premature)
    rw [decode, failed]
    cases c.config.ignoreErrors <;> rfl
  next => cases truncated

theorem truncated_premature_errand : ∃ c v, ofLanguage errandLanguage { errandConfig with maxLength := some 3 } = .ok c ∧
    c.encode ["say", "it"] "send it to ben" = .ok v ∧ v.truncated = true ∧
    c.verify v = .error (.replay (.prematureAccept 2)) ∧
    ∀ input, c.decode input v = .error (.replay (.prematureAccept 2)) := by
  have checked : (ofLanguage errandLanguage { errandConfig with maxLength := some 3 }).toOption.map (fun c =>
      (c.actionCount, (c.encode ["say", "it"] "send it to ben").toOption.map ActionVectors.truncated)) = some (9, some true) := by
    decide +kernel
  obtain ⟨c, assembled, checked⟩ := Option.map_eq_some_iff.mp checked
  obtain ⟨actions, written⟩ := Prod.mk.inj checked
  obtain ⟨v, encoded, truncated⟩ := Option.map_eq_some_iff.mp written
  have assembled := Grammar.eq_ok_of_toOption assembled
  have encoded := Grammar.eq_ok_of_toOption encoded
  obtain ⟨verified, decoded⟩ := truncated_premature assembled (by decide) (by rw [actions]; decide) rfl rfl encoded truncated
  exact ⟨c, v, assembled, encoded, truncated, verified, decoded⟩

end Codec

end CommandLang
