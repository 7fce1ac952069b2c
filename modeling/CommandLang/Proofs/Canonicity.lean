import CommandLang.Proofs.Verification

/-! Writing what was read. Every action is read as one event or leaf whose slot is the action itself, with what its
channel holds, and events that can be replayed are those of the parse. So vectors that pass the check are the ones
that are written for their leaves, up to the first action that accepts. -/

namespace CommandLang

def accepts (action : UInt32) : Bool := action.toNat = Token.pad || action.toNat = Token.eos

def ActionVectors.used (v : ActionVectors) : List UInt32 := v.actions.takeWhile fun action => !accepts action

namespace Codec

variable {c : Codec} {g : Grammar} {devices : OrderedMap String String} {v : ActionVectors} {leaves : List Leaf}
  {action : UInt32} {position token : Nat} {channel : Channel} {leaf : Leaf} {actions : List UInt32}

def entry (c : Codec) (v : ActionVectors) (position : Nat) : Channel → Option Payload
  | .copy number => do
    let channel ← c.copies[number]?
    let spans ← v.spans.get? channel.name
    return .span (← spans.first[position]?).toNat (← spans.last[position]?).toNat
  | .value number => do
    let channel ← c.values[number]?
    let places ← v.values.get? channel.name
    return .index (← places[position]?).toNat

/-- The channel of a slot, if it has one, holds what the slot carries. -/
def Shows (c : Codec) (v : ActionVectors) (position : Nat) (slot : Slot) : Prop :=
  ∀ channel, c.channel? slot.action = some channel → c.entry v position channel = some slot.payload.oneBased

theorem toNat_of_kind (c : Codec) (action : UInt32) :
    match c.kind action with
    | .pad => action.toNat = Token.pad
    | .eos => action.toNat = Token.eos
    | .start => action.toNat = Token.start
    | .reduce rule => action.toNat = Token.controls + rule
    | .copy number => action.toNat = c.copyBase + number
    | .value number => action.toNat = c.valueBase + number
    | .token token => action.toNat = token
    | .invalid => Token.controls ≤ action.toNat := by
  have range := c.numbers_kind action
  revert range
  cases c.kind action with
  | reduce rule => exact fun range => range.2.2
  | copy number => exact fun range => range.2.2
  | value number => exact fun range => range.2.2
  | token token => exact fun range => range.2.2.2
  | invalid => exact fun range => Nat.le_trans c.controls_le_actionCount range
  | _ => exact id

private theorem ofNat_of_toNat {number : Nat} (same : action.toNat = number) : UInt32.ofNat number = action := by
  rw [← same, UInt32.ofNat_toNat]

theorem accepts_of_kind (kind : c.kind action = .pad ∨ c.kind action = .eos) : accepts action = true := by
  have number := c.toNat_of_kind action
  rcases kind with pad | eos
  · rw [pad] at number
    simp [accepts, show action.toNat = Token.pad from number]
  · rw [eos] at number
    simp [accepts, show action.toNat = Token.eos from number]

theorem accepts_eq_false_of_kind (pad : c.kind action ≠ .pad) (eos : c.kind action ≠ .eos) : accepts action = false := by
  simp only [accepts, Bool.or_eq_false_iff, decide_eq_false_iff_not]
  constructor
  · intro number
    exact pad (if_pos number)
  · intro number
    apply eos
    rw [kind, number]
    rfl

theorem tokenChannel?_inj {other : Nat} (left : c.tokenChannel? token = some channel)
    (right : c.tokenChannel? other = some channel) : token = other := by
  have owner : ∀ {token}, c.tokenChannel? token = some channel → match channel with
      | .copy number => ∃ channel, c.copies[number]? = some channel ∧ channel.token = token
      | .value number => ∃ channel, c.values[number]? = some channel ∧ channel.token = token := by
    intro token own
    rw [tokenChannel?] at own
    split at own
    next number found =>
      obtain rfl := Option.some.inj own
      obtain ⟨inside, same, _⟩ := List.findIdx?_eq_some_iff_getElem.mp found
      exact ⟨_, List.getElem?_eq_getElem inside, of_decide_eq_true same⟩
    next =>
      obtain ⟨number, found, rfl⟩ := Option.map_eq_some_iff.mp own
      obtain ⟨inside, same, _⟩ := List.findIdx?_eq_some_iff_getElem.mp found
      exact ⟨_, List.getElem?_eq_getElem inside, of_decide_eq_true same⟩
  have here := owner left
  have there := owner right
  cases channel with
  | copy number =>
    obtain ⟨_, known, rfl⟩ := here
    obtain ⟨_, known', rfl⟩ := there
    rw [Option.some.inj (known.symm.trans known')]
  | value number =>
    obtain ⟨_, known, rfl⟩ := here
    obtain ⟨_, known', rfl⟩ := there
    rw [Option.some.inj (known.symm.trans known')]

theorem carried_eq_ok (covers : c.Covers g devices) (taken : c.carried v position action channel = .ok leaf) :
    c.tokenChannel? leaf.token = some channel ∧ c.entry v position channel = some leaf.payload.oneBased := by
  cases channel with
  | copy number =>
    rw [carried] at taken
    split at taken
    next token first last found =>
      split at taken
      next ordered =>
        obtain rfl := Except.ok.inj taken
        obtain ⟨declared, known, found⟩ := Option.bind_eq_some_iff.mp found
        obtain ⟨spans, stored, found⟩ := Option.bind_eq_some_iff.mp found
        obtain ⟨low, begins, found⟩ := Option.bind_eq_some_iff.mp found
        obtain ⟨high, ends, found⟩ := Option.bind_eq_some_iff.mp found
        obtain ⟨rfl, rfl, rfl⟩ : declared.token = token ∧ low = first ∧ high = last := by simpa using found
        have above : 1 ≤ low.toNat := UInt32.le_iff_toNat_le.mp ordered.1
        have below : low.toNat ≤ high.toNat := UInt32.le_iff_toNat_le.mp ordered.2
        refine ⟨covers.tokenChannel?_copy known, ?_⟩
        simp only [entry, known, stored, begins, ends, Payload.oneBased, bind, Option.bind, pure]
        rw [Nat.sub_add_cancel above, Nat.sub_add_cancel (Nat.le_trans above below)]
      · cases taken
    · cases taken
  | value number =>
    rw [carried] at taken
    split at taken
    next token place found =>
      obtain rfl := Except.ok.inj taken
      obtain ⟨declared, known, found⟩ := Option.bind_eq_some_iff.mp found
      obtain ⟨places, stored, found⟩ := Option.bind_eq_some_iff.mp found
      obtain ⟨_, stands, found⟩ := Option.bind_eq_some_iff.mp found
      obtain ⟨rfl, rfl⟩ : declared.token = token ∧ _ = place := by simpa using found
      refine ⟨covers.tokenChannel?_value known, ?_⟩
      simp only [entry, known, stored, stands, Payload.oneBased, bind, Option.bind, pure]
    · cases taken

/-- The event is written as the action, and the channel holds what it carries. -/
def Rewrites (c : Codec) (v : ActionVectors) (position : Nat) (action : UInt32) (event : Event) : Prop :=
  ∃ slot, c.slot? event = some slot ∧ slot.action = action ∧ c.Shows v position slot

private theorem rewrites_reduce {rule : Nat} (bare : c.channel? action = none)
    (number : action.toNat = Token.controls + rule) : c.Rewrites v position action (.reduce rule) := by
  have same := ofNat_of_toNat number
  refine ⟨_, rfl, same, fun channel own => ?_⟩
  rw [same, bare] at own
  cases own

private theorem rewrites_shift (covers : c.Covers g devices) (taken : c.carried v position action channel = .ok leaf)
    (own : c.channel? action = some channel) (number : action.toNat = c.actionOf channel) :
    c.Rewrites v position action (.shift leaf) := by
  obtain ⟨found, stands⟩ := carried_eq_ok covers taken
  have same : UInt32.ofNat (c.actionOf channel) = action := ofNat_of_toNat number
  refine ⟨⟨UInt32.ofNat (c.actionOf channel), leaf.payload⟩, ?_, same, fun other own' => ?_⟩
  · rw [slot?_shift, found, Option.map_some]
  · rw [same, own] at own'
    exact Option.some.inj own' ▸ stands

theorem eventsFrom_cons_eq_ok (covers : c.Covers g devices) {events : List Event}
    (read : c.eventsFrom v position (action :: actions) = .ok events) :
    (accepts action = true ∧ events = [.accept]) ∨ ∃ event more, events = event :: more ∧ accepts action = false ∧
      c.Rewrites v position action event ∧ c.eventsFrom v (position + 1) actions = .ok more := by
  have number := c.toNat_of_kind action
  have behind : ∀ {event : Event}, (do return event :: (← c.eventsFrom v (position + 1) actions)) = .ok events →
      c.Rewrites v position action event → c.kind action ≠ .pad → c.kind action ≠ .eos → ∃ event more,
        events = event :: more ∧ accepts action = false ∧ c.Rewrites v position action event ∧
        c.eventsFrom v (position + 1) actions = .ok more := by
    intro event read rewrites pad eos
    obtain ⟨more, later, whole⟩ := bind_eq_ok.mp read
    exact ⟨event, more, (Except.ok.inj whole).symm, accepts_eq_false_of_kind pad eos, rewrites, later⟩
  rw [eventsFrom] at read
  split at read
  next kind => exact Or.inl ⟨accepts_of_kind (Or.inl kind), (Except.ok.inj read).symm⟩
  next kind => exact Or.inl ⟨accepts_of_kind (Or.inr kind), (Except.ok.inj read).symm⟩
  next => cases read
  next => cases read
  next rule kind =>
    rw [kind] at number
    exact Or.inr (behind read (rewrites_reduce (by simp [channel?, kind]) number) (by simp [kind]) (by simp [kind]))
  next kind =>
    rw [kind] at number
    exact Or.inr (behind read (rewrites_reduce (by simp [channel?, kind]) (Nat.add_sub_cancel' number).symm)
      (by simp [kind]) (by simp [kind]))
  next other kind =>
    rw [kind] at number
    obtain ⟨leaf, taken, read⟩ := bind_eq_ok.mp read
    exact Or.inr (behind read (rewrites_shift covers taken (by simp [channel?, kind]) number) (by simp [kind]) (by simp [kind]))
  next other kind =>
    rw [kind] at number
    obtain ⟨leaf, taken, read⟩ := bind_eq_ok.mp read
    exact Or.inr (behind read (rewrites_shift covers taken (by simp [channel?, kind]) number) (by simp [kind]) (by simp [kind]))

def tokenSlot (leaf : Leaf) : Slot := ⟨UInt32.ofNat leaf.token, leaf.payload⟩

theorem leavesFrom_cons_eq_ok (covers : c.Covers g devices)
    (read : c.leavesFrom v position (action :: actions) = .ok leaves) :
    (accepts action = true ∧ leaves = []) ∨ ∃ leaf more, leaves = leaf :: more ∧ accepts action = false ∧
      (tokenSlot leaf).action = action ∧ c.Shows v position (tokenSlot leaf) ∧
      c.leavesFrom v (position + 1) actions = .ok more := by
  have number := c.toNat_of_kind action
  rw [leavesFrom] at read
  split at read
  next kind => exact Or.inl ⟨accepts_of_kind (Or.inl kind), (Except.ok.inj read).symm⟩
  next kind => exact Or.inl ⟨accepts_of_kind (Or.inr kind), (Except.ok.inj read).symm⟩
  next token kind =>
    rw [kind] at number
    have busy : accepts action = false := accepts_eq_false_of_kind (c := c) (by simp [kind]) (by simp [kind])
    have same : UInt32.ofNat token = action := ofNat_of_toNat number
    have channels : c.channel? action = c.tokenChannel? token := by rw [channel?, kind]
    right
    split at read
    next channel own =>
      obtain ⟨leaf, taken, read⟩ := bind_eq_ok.mp read
      obtain ⟨more, later, whole⟩ := bind_eq_ok.mp read
      obtain ⟨found, stands⟩ := carried_eq_ok covers taken
      obtain rfl := tokenChannel?_inj found own
      refine ⟨leaf, more, (Except.ok.inj whole).symm, busy, same, fun other own' => ?_, later⟩
      rw [show (tokenSlot leaf).action = action from same, channels, own] at own'
      exact Option.some.inj own' ▸ stands
    next bare =>
      obtain ⟨more, later, whole⟩ := bind_eq_ok.mp read
      refine ⟨⟨token, .none⟩, more, (Except.ok.inj whole).symm, busy, same, fun other own => ?_, later⟩
      rw [show (tokenSlot ⟨token, .none⟩).action = action from same, channels, bare] at own
      cases own
  next => cases read

/-- Slots from a position on, each with its action and with what its channel holds. -/
def ShowsFrom (c : Codec) (v : ActionVectors) (position : Nat) (actions : List UInt32) (slots : List Slot) : Prop :=
  (actions.takeWhile fun action => !accepts action) = slots.map Slot.action ∧
    ∀ offset slot, slots[offset]? = some slot → c.Shows v (position + offset) slot

private theorem showsFrom_nil (position : Nat) (last : ∀ action ∈ actions.head?, accepts action = true) :
    c.ShowsFrom v position actions [] := by
  refine ⟨?_, fun offset slot found => by simp at found⟩
  cases actions with
  | nil => rfl
  | cons action rest => simp [last action rfl]

private theorem ShowsFrom.cons {slot : Slot} {slots : List Slot} (shows' : c.Shows v position slot)
    (busy : accepts slot.action = false) (later : c.ShowsFrom v (position + 1) actions slots) :
    c.ShowsFrom v position (slot.action :: actions) (slot :: slots) := by
  obtain ⟨same, others⟩ := later
  refine ⟨by simp [busy, same], fun offset other found => ?_⟩
  cases offset with
  | zero => exact Option.some.inj found ▸ shows'
  | succ offset => exact (Nat.add_right_comm position 1 offset) ▸ others offset other found

/-- The events that are read are written as the actions that they were read from, and they end only if an action
accepts. -/
theorem slots_of_eventsFrom (covers : c.Covers g devices) {events : List Event}
    (read : c.eventsFrom v position actions = .ok events) :
    c.ShowsFrom v position actions (events.filterMap c.slot?) ∧
    (.accept ∈ events → ∃ action ∈ actions, accepts action = true) := by
  induction actions generalizing position events with
  | nil =>
    obtain rfl := Except.ok.inj read
    exact ⟨showsFrom_nil position (by simp), fun member => absurd member List.not_mem_nil⟩
  | cons action rest ih =>
    rcases eventsFrom_cons_eq_ok covers read with ⟨last, rfl⟩ | ⟨event, more, rfl, busy, ⟨slot, taken, rfl, here⟩, later⟩
    · exact ⟨showsFrom_nil position (by simpa using last), fun _ => ⟨action, List.mem_cons_self .., last⟩⟩
    · obtain ⟨others, ends⟩ := ih later
      rw [List.filterMap_cons_some taken]
      refine ⟨others.cons here busy, fun member => ?_⟩
      rcases List.mem_cons.mp member with rfl | behind
      · cases taken
      · obtain ⟨action, inside, last⟩ := ends behind
        exact ⟨action, List.mem_cons_of_mem _ inside, last⟩

/-- The leaves that are read from linear actions are written as these actions. -/
theorem slots_of_leavesFrom (covers : c.Covers g devices) (read : c.leavesFrom v position actions = .ok leaves) :
    c.ShowsFrom v position actions (leaves.map tokenSlot) := by
  induction actions generalizing position leaves with
  | nil =>
    obtain rfl := Except.ok.inj read
    exact showsFrom_nil position (by simp)
  | cons action rest ih =>
    rcases leavesFrom_cons_eq_ok covers read with ⟨last, rfl⟩ | ⟨leaf, more, rfl, busy, rfl, here, later⟩
    · exact showsFrom_nil position (by simpa using last)
    · exact (ih later).cons here busy

theorem filterMap_slot?_withoutFixed (covers : c.Covers g devices) (events : List Event) :
    (c.automaton.grammar.withoutFixed events).filterMap c.slot? = events.filterMap c.slot? := by
  rw [Numbered.withoutFixed, List.filterMap_filter]
  apply List.filterMap_congr
  intro event _
  cases event with
  | shift leaf =>
    simp only [covers.table.grammar, Numbered.isFixed]
    split
    next named => simp [slot?, covers.tokenChannel?_fixed named]
    next => rfl
  | reduce rule => rfl
  | accept => rfl

/-- Vectors that pass the check are the ones that are written for their leaves, up to the first action that accepts. In
a derivation there is one. -/
theorem showsFrom_of_leaves (covers : c.Covers g devices) (read : c.leaves v = .ok leaves) :
    (∃ slots, c.slots leaves = .ok slots ∧ c.ShowsFrom v 0 v.actions slots) ∧
    (c.config.direction ≠ .linear → ∃ action ∈ v.actions, accepts action = true) := by
  cases direction : c.config.direction with
  | derivation order =>
    obtain ⟨events, found, replayed⟩ := (leaves_eq_ok_of_derivation direction).mp read
    obtain ⟨same, ends⟩ := slots_of_eventsFrom covers found
    obtain ⟨tree, root, yields, fits, alike⟩ := Automaton.replay_sound replayed
    rw [covers.table.grammar] at root
    have parsed := (Automaton.parse_eq_ok_iff covers.table g.number_lawful order).mpr ⟨fits, tree, root, yields, rfl⟩
    constructor
    · refine ⟨(tree.listing order ++ [Event.accept]).filterMap c.slot?, ?_, ?_⟩
      · simp only [slots, direction]
        exact bind_eq_ok.mpr ⟨_, parsed, rfl⟩
      · rwa [← filterMap_slot?_withoutFixed covers, alike, filterMap_slot?_withoutFixed covers]
    · intro _
      obtain ⟨body, rfl, _⟩ := Automaton.replay_eq_ok replayed
      exact ends (List.mem_append_right _ (List.mem_singleton_self _))
  | linear =>
    obtain ⟨found, events, parsed⟩ := (leaves_eq_ok_of_linear direction).mp read
    refine ⟨⟨leaves.map tokenSlot, ?_, slots_of_leavesFrom covers found⟩, fun derived => absurd rfl derived⟩
    simp only [slots, direction]
    exact bind_eq_ok.mpr ⟨_, parsed, rfl⟩

/-- Vectors that pass the check are canonical: their actions, up to the first that accepts, are those of the slots of
the leaves that they tell, and next to each of them its channel holds what the slot carries, with bounds of spans that
count from one. So vectors that tell the same leaves agree wherever they are used. -/
theorem leaves_canonical {language : Language} {config : CodecConfig} (assembled : ofLanguage language config = .ok c)
    {v : ActionVectors} {leaves : List Leaf} (read : c.leaves v = .ok leaves) :
    (∃ slots, c.slots leaves = .ok slots ∧ v.used = slots.map Slot.action ∧
      ∀ position slot, slots[position]? = some slot → ∀ channel, c.channel? slot.action = some channel →
        c.entry v position channel = some slot.payload.oneBased) ∧
    (c.config.direction ≠ .linear → ∃ action ∈ v.actions, accepts action = true) ∧
    ∀ other, c.leaves other = .ok leaves → other.used = v.used ∧
      ∀ position action, v.used[position]? = some action → ∀ channel, c.channel? action = some channel →
        c.entry other position channel = c.entry v position channel := by
  obtain ⟨g, covers, _⟩ := covers_of_ofLanguage assembled
  obtain ⟨⟨slots, written, used, held⟩, ends⟩ := showsFrom_of_leaves covers read
  simp only [Nat.zero_add] at held
  refine ⟨⟨slots, written, used, held⟩, ends, fun other read' => ?_⟩
  obtain ⟨⟨_, written', used', held'⟩, _⟩ := showsFrom_of_leaves covers read'
  obtain rfl := Except.ok.inj (written.symm.trans written')
  simp only [Nat.zero_add] at held'
  refine ⟨used'.trans used.symm, fun position action found channel own => ?_⟩
  rw [show v.used = slots.map Slot.action from used, List.getElem?_map] at found
  obtain ⟨slot, known, rfl⟩ := Option.map_eq_some_iff.mp found
  exact (held' position slot known channel own).trans (held position slot known channel own).symm

/-- A span that is sent along although the sentence ends before it. -/
def strayVectors : ActionVectors where
  actions := [3, 6, 4, 7, 1]
  values := ∅
  spans := .ofList [("quote", ⟨[0, 0, 0, 5, 0], [0, 0, 0, 4294967295, 0]⟩)]
  length := 5
  truncated := false

/-- The same span, padded instead of ended, with numbers that nobody reads. -/
def paddedVectors : ActionVectors where
  actions := [3, 6, 4, 7, 0, 42]
  values := .ofList [("name", [9])]
  spans := .ofList [("quote", ⟨[8, 0, 0, 5], [0, 0, 7, 4294967295, 1]⟩)]
  length := 0
  truncated := true

theorem leaves_canonical_stray : ∃ c leaves, ofLanguage errandLanguage errandConfig = .ok c ∧
    c.leaves strayVectors = .ok leaves ∧ c.leaves paddedVectors = .ok leaves ∧
    (∃ slots, c.slots leaves = .ok slots ∧ strayVectors.used = slots.map Slot.action) ∧
    paddedVectors.used = strayVectors.used := by
  have checked : (ofLanguage errandLanguage errandConfig).toOption.map (fun c =>
      ((c.leaves strayVectors).toOption, (c.leaves paddedVectors).toOption)) =
      some (some [⟨3, .none⟩, ⟨6, .span 4 4294967294⟩], some [⟨3, .none⟩, ⟨6, .span 4 4294967294⟩]) := by
    decide +kernel
  obtain ⟨c, assembled, checked⟩ := Option.map_eq_some_iff.mp checked
  obtain ⟨read, read'⟩ := Prod.mk.inj checked
  have assembled := Grammar.eq_ok_of_toOption assembled
  have read := Grammar.eq_ok_of_toOption read
  have read' := Grammar.eq_ok_of_toOption read'
  obtain ⟨⟨slots, written, used, _⟩, _, agree⟩ := leaves_canonical assembled read
  exact ⟨c, _, assembled, read, read', ⟨slots, written, used⟩, (agree _ read').1⟩

end Codec

end CommandLang
