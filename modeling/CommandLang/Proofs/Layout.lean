import CommandLang.Proofs.Channels
import CommandLang.Proofs.Outcome
import CommandLang.Proofs.Replay
import CommandLang.Vector.Decode

/-! Slots and vectors. A slot that was laid out in vectors is read again at its position, with bounds of spans that
count from zero instead of one, and no other slot disturbs its channel. So the leaves of a derivation come back
from its vectors. -/

namespace CommandLang

/-- Bounds of spans count from one in vectors and from zero behind them. -/
def Payload.zeroBased : Payload → Payload
  | .span first last => .span (first - 1) (last - 1)
  | payload => payload

def Leaf.zeroBased (leaf : Leaf) : Leaf := ⟨leaf.token, leaf.payload.zeroBased⟩

def Payload.oneBased : Payload → Payload
  | .span first last => .span (first + 1) (last + 1)
  | payload => payload

def Leaf.oneBased (leaf : Leaf) : Leaf := ⟨leaf.token, leaf.payload.oneBased⟩

/-- What words of 32 bits keep of a payload. -/
def Payload.wrapped : Payload → Payload
  | .index place => .index (place % 2 ^ 32)
  | .span first last => .span (first % 2 ^ 32) (last % 2 ^ 32)
  | payload => payload

def Leaf.wrapped (leaf : Leaf) : Leaf := ⟨leaf.token, leaf.payload.wrapped⟩

theorem Automaton.payloadFits_zeroBased {a : Automaton} {leaf : Leaf} (fits : a.payloadFits leaf = true) :
    a.payloadFits leaf.zeroBased = true := by
  obtain ⟨token, payload⟩ := leaf
  cases payload with
  | span first last =>
    simp only [payloadFits, Leaf.zeroBased, Payload.zeroBased] at fits ⊢
    split at fits
    all_goals simp_all
    omega
  | _ => exact fits

namespace Codec

variable {c : Codec} {g : Grammar} {devices : OrderedMap String String} {number position : Nat} {slots : List Slot}
  {truncated : Bool}

/-- A leaf whose place or bounds can be written into the channel of its token. -/
inductive Holds (c : Codec) : Leaf → Prop where
  | fixed {token : Nat} (bare : c.tokenChannel? token = none) : Holds c ⟨token, .none⟩
  | value {number place : Nat} {channel : ValueChannel} (found : c.values[number]? = some channel)
      (small : place < 2 ^ 32) : Holds c ⟨channel.token, .index place⟩
  | copy {number first last : Nat} {channel : CopyChannel} (found : c.copies[number]? = some channel)
      (above : 1 ≤ first) (ordered : first ≤ last) (small : last < 2 ^ 32) : Holds c ⟨channel.token, .span first last⟩

/-- Nothing is lost where bounds count from one. -/
theorem Holds.oneBased_zeroBased {leaf : Leaf} (holds : c.Holds leaf) : leaf.zeroBased.oneBased = leaf := by
  cases holds with
  | fixed => rfl
  | value => rfl
  | @copy number first last channel found above ordered small =>
    have begins : first - 1 + 1 = first := by omega
    have ends : last - 1 + 1 = last := by omega
    simp only [Leaf.zeroBased, Payload.zeroBased, Leaf.oneBased, Payload.oneBased, begins, ends]

private theorem get?_named {α β : Type} {items : List α} {name : α → String} (entry : α → Nat → β)
    (distinct : (items.map name).Nodup) {item : α} (found : items[number]? = some item) :
    (OrderedMap.ofList (items.zipIdx.map fun (item, number) => (name item, entry item number))).get? (name item) =
      some (entry item number) := by
  refine OrderedMap.get?_ofList_of_mem ?_ (List.mem_map.mpr ⟨(item, number), List.mk_mem_zipIdx_iff_getElem?.mpr found, rfl⟩)
  have keys : (items.zipIdx.map fun (item, number) => (name item, entry item number)).map Prod.fst =
      (items.zipIdx.map Prod.fst).map name := by
    rw [List.map_map, List.map_map]
    rfl
  rw [keys, List.zipIdx_map_fst]
  exact distinct

/-- One array of vectors: an entry for each slot, and nothing behind. -/
def column (c : Codec) (slots : List Slot) (entry : Slot → UInt32) : List UInt32 :=
  (slots.map entry).rightpad (c.config.maxLength.getD slots.length) 0

theorem getElem?_column_of_placed {α : Type} {entry : Slot → α} {width : Nat} {filler : α} {slot : Slot}
    (placed : slots[position]? = some slot) : ((slots.map entry).rightpad width filler)[position]? = some (entry slot) := by
  obtain ⟨inside, rfl⟩ := List.getElem?_eq_some_iff.mp placed
  rw [List.rightpad, List.getElem?_append_left (by simpa using inside), List.getElem?_map, placed, Option.map_some]

theorem Covers.get?_values (covers : c.Covers g devices) {channel : ValueChannel} (found : c.values[number]? = some channel) :
    (c.layOut slots truncated).values.get? channel.name = some (c.column slots (c.placeEntry number)) :=
  get?_named (fun _ number => c.column slots (c.placeEntry number))
    (covers.values_nodup.map_on fun _ left _ right same => covers.values_inj left right (Or.inl same)) found

theorem Covers.get?_spans (covers : c.Covers g devices) {channel : CopyChannel} (found : c.copies[number]? = some channel) :
    (c.layOut slots truncated).spans.get? channel.name = some
      ⟨c.column slots fun slot => (c.spanEntry number slot).1, c.column slots fun slot => (c.spanEntry number slot).2⟩ :=
  get?_named (fun _ number => CopySpans.mk (c.column slots fun slot => (c.spanEntry number slot).1)
      (c.column slots fun slot => (c.spanEntry number slot).2))
    (covers.copies_nodup.map_on fun _ left _ right same => covers.copies_inj left right (Or.inl same)) found

private theorem toNat_ofNat {n : Nat} (small : n < 2 ^ 32) : (UInt32.ofNat n).toNat = n :=
  UInt32.toNat_ofNat_of_lt' (by simpa [UInt32.size] using small)

/-- The slot of an extensible class writes its place into the channel of the class. -/
theorem Covers.exists_places (truncated : Bool) (covers : c.Covers g devices) {channel : ValueChannel}
    (found : c.values[number]? = some channel) {place : Nat} {action : UInt32} (reads : c.channel? action = some (.value number))
    (placed : slots[position]? = some ⟨action, .index place⟩) : ∃ places,
      (c.layOut slots truncated).values.get? channel.name = some places ∧ places[position]? = some (UInt32.ofNat place) := by
  have written : c.placeEntry number ⟨action, .index place⟩ = UInt32.ofNat place := by simp [placeEntry, reads]
  exact ⟨_, covers.get?_values found, written ▸ getElem?_column_of_placed placed⟩

/-- The slot of a copy class writes its bounds into the channel of the class. -/
theorem Covers.exists_spans (truncated : Bool) (covers : c.Covers g devices) {channel : CopyChannel}
    (found : c.copies[number]? = some channel) {first last : Nat} {action : UInt32} (reads : c.channel? action = some (.copy number))
    (placed : slots[position]? = some ⟨action, .span first last⟩) : ∃ spans,
      (c.layOut slots truncated).spans.get? channel.name = some spans ∧
      spans.first[position]? = some (UInt32.ofNat first) ∧ spans.last[position]? = some (UInt32.ofNat last) := by
  have written : c.spanEntry number ⟨action, .span first last⟩ = (UInt32.ofNat first, UInt32.ofNat last) := by
    simp [spanEntry, reads]
  exact ⟨_, covers.get?_spans found, (getElem?_column_of_placed placed).trans (by rw [written]),
    (getElem?_column_of_placed placed).trans (by rw [written])⟩

private theorem carried_value (covers : c.Covers g devices) {channel : ValueChannel} (found : c.values[number]? = some channel)
    {place : Nat} (small : place < 2 ^ 32) {action : UInt32} (reads : c.channel? action = some (.value number))
    (placed : slots[position]? = some ⟨action, .index place⟩) :
    c.carried (c.layOut slots truncated) position action (.value number) = .ok ⟨channel.token, .index place⟩ := by
  obtain ⟨places, stored, here⟩ := covers.exists_places truncated found reads placed
  simp only [carried, found, stored, here, Option.pure_def, Option.bind_eq_bind, Option.bind_some, toNat_ofNat small]

private theorem carried_copy (covers : c.Covers g devices) {channel : CopyChannel} (found : c.copies[number]? = some channel)
    {first last : Nat} (above : 1 ≤ first) (ordered : first ≤ last) (small : last < 2 ^ 32) {action : UInt32}
    (reads : c.channel? action = some (.copy number)) (placed : slots[position]? = some ⟨action, .span first last⟩) :
    c.carried (c.layOut slots truncated) position action (.copy number) =
      .ok ⟨channel.token, .span (first - 1) (last - 1)⟩ := by
  obtain ⟨spans, stored, begins, ends⟩ := covers.exists_spans truncated found reads placed
  have front := toNat_ofNat (Nat.lt_of_le_of_lt ordered small)
  have back := toNat_ofNat small
  have sound : (1 : UInt32) ≤ UInt32.ofNat first ∧ UInt32.ofNat first ≤ UInt32.ofNat last := by
    rw [UInt32.le_iff_toNat_le, UInt32.le_iff_toNat_le, front, back]
    exact ⟨above, ordered⟩
  simp only [carried, found, stored, begins, ends, Option.pure_def, Option.bind_eq_bind, Option.bind_some,
    sound, and_self, if_true, front, back]

theorem carried_layOut (truncated : Bool) (covers : c.Covers g devices) {leaf : Leaf} (holds : c.Holds leaf) {action : UInt32}
    {channel : Channel} (own : c.tokenChannel? leaf.token = some channel) (reads : c.channel? action = some channel)
    (placed : slots[position]? = some ⟨action, leaf.payload⟩) :
    c.carried (c.layOut slots truncated) position action channel = .ok leaf.zeroBased := by
  cases holds with
  | fixed bare => cases bare.symm.trans own
  | value found small =>
    obtain rfl := Option.some.inj ((covers.tokenChannel?_value found).symm.trans own)
    exact carried_value covers found small reads placed
  | copy found above ordered small =>
    obtain rfl := Option.some.inj ((covers.tokenChannel?_copy found).symm.trans own)
    exact carried_copy covers found above ordered small reads placed

theorem slot?_shift (c : Codec) (leaf : Leaf) : c.slot? (.shift leaf) =
    (c.tokenChannel? leaf.token).map fun channel => ⟨UInt32.ofNat (c.actionOf channel), leaf.payload⟩ := by
  rw [slot?]
  congr 1
  funext channel
  cases channel <;> rfl

theorem isFixed_of_slot? (covers : c.Covers g devices) {leaf : Leaf} {slot : Slot} (taken : c.slot? (.shift leaf) = some slot) :
    c.automaton.grammar.isFixed leaf.token = false := by
  rw [slot?_shift] at taken
  obtain ⟨channel, own, _⟩ := Option.map_eq_some_iff.mp taken
  rw [Numbered.isFixed, covers.table.grammar]
  split
  next text named => cases own.symm.trans (covers.tokenChannel?_fixed named)
  next => rfl

/-- An event that has its place in vectors, or needs none. -/
def Admits (c : Codec) : Event → Prop
  | .shift leaf => c.Holds leaf
  | .reduce rule => rule < c.ruleCount
  | .accept => False

/-- The events that come back from the slots of events. -/
def kept (c : Codec) (events : List Event) : List Event :=
  events.filterMap fun event => (c.slot? event).map fun _ => event.mapLeaf Leaf.zeroBased

private theorem eventsFrom_cons (covers : c.Covers g devices) (small : c.actionCount ≤ 2 ^ 32) (derived : c.isLinear = false)
    {event : Event} (admits : c.Admits event) {slot : Slot} (taken : c.slot? event = some slot)
    (placed : slots[position]? = some slot) {behind : List UInt32} {more : List Event}
    (later : c.eventsFrom (c.layOut slots truncated) (position + 1) behind = .ok more) :
    c.eventsFrom (c.layOut slots truncated) position (slot.action :: behind) =
      .ok (event.mapLeaf Leaf.zeroBased :: more) := by
  cases event with
  | accept => cases admits
  | reduce rule =>
    cases taken
    simp only [eventsFrom, kind_reduce small derived admits, later, bind, Except.bind, pure, Except.pure, Event.mapLeaf]
  | shift leaf =>
    obtain ⟨channel, own, rfl⟩ := Option.map_eq_some_iff.mp taken
    cases channel with
    | copy number =>
      have kind := kind_copy small derived (lt_of_tokenChannel?_copy own)
      have held := carried_layOut truncated covers admits own (by simp only [channel?, kind]) placed
      simp only [eventsFrom, kind, held, later, bind, Except.bind, pure, Except.pure, Event.mapLeaf]
    | value number =>
      have kind := kind_value small derived (lt_of_tokenChannel?_value own)
      have held := carried_layOut truncated covers admits own (by simp only [channel?, kind]) placed
      simp only [eventsFrom, kind, held, later, bind, Except.bind, pure, Except.pure, Event.mapLeaf]

theorem kind_eos : c.kind (UInt32.ofNat Token.eos) = .eos := rfl

/-- The slots of events are read as the events, without those that have no slot. -/
theorem eventsFrom_layOut (covers : c.Covers g devices) (small : c.actionCount ≤ 2 ^ 32) (derived : c.isLinear = false)
    {front : List Slot} {events : List Event} (whole : slots = front ++ events.filterMap c.slot? ++ [.eos])
    (admits : ∀ event ∈ events, c.Admits event) (behind : List UInt32) :
    c.eventsFrom (c.layOut slots truncated) front.length
        ((events.filterMap c.slot?).map Slot.action ++ UInt32.ofNat Token.eos :: behind) =
      .ok (c.kept events ++ [.accept]) := by
  induction events generalizing front with
  | nil => simp [eventsFrom, kind_eos, kept]
  | cons event rest ih =>
    obtain ⟨here, others⟩ := List.forall_mem_cons.mp admits
    cases taken : c.slot? event with
    | none =>
      simp only [List.filterMap_cons, taken] at whole
      simpa [kept, List.filterMap_cons, taken] using ih whole others
    | some slot =>
      simp only [List.filterMap_cons, taken] at whole
      have later := @ih (front ++ [slot]) (by simpa using whole) others
      rw [List.length_append, List.length_singleton] at later
      have placed : slots[front.length]? = some slot := by simp [whole]
      simpa [kept, List.filterMap_cons, taken] using eventsFrom_cons covers small derived here taken placed later

private theorem leavesFrom_cons (covers : c.Covers g devices) {leaf : Leaf} (holds : c.Holds leaf)
    (reads : c.kind (UInt32.ofNat leaf.token) = .token leaf.token)
    (placed : slots[position]? = some ⟨UInt32.ofNat leaf.token, leaf.payload⟩) {behind : List UInt32} {more : List Leaf}
    (later : c.leavesFrom (c.layOut slots truncated) (position + 1) behind = .ok more) :
    c.leavesFrom (c.layOut slots truncated) position (UInt32.ofNat leaf.token :: behind) = .ok (leaf.zeroBased :: more) := by
  cases own : c.tokenChannel? leaf.token with
  | some channel =>
    have held := carried_layOut truncated covers holds own (by simp only [channel?, reads, own]) placed
    simp only [leavesFrom, reads, own, held, later, bind, Except.bind, pure, Except.pure]
  | none =>
    cases holds with
    | fixed bare =>
      simp only [leavesFrom, reads, own, later, bind, Except.bind, pure, Except.pure, Leaf.zeroBased, Payload.zeroBased]
    | value found => cases own.symm.trans (covers.tokenChannel?_value found)
    | copy found => cases own.symm.trans (covers.tokenChannel?_copy found)

theorem leavesFrom_layOut (covers : c.Covers g devices) {front : List Slot} {leaves : List Leaf}
    (whole : slots = front ++ (leaves.map fun leaf => ⟨UInt32.ofNat leaf.token, leaf.payload⟩) ++ [.eos])
    (holds : ∀ leaf ∈ leaves, c.Holds leaf ∧ c.kind (UInt32.ofNat leaf.token) = .token leaf.token) (behind : List UInt32) :
    c.leavesFrom (c.layOut slots truncated) front.length
        ((leaves.map fun leaf => UInt32.ofNat leaf.token) ++ UInt32.ofNat Token.eos :: behind) =
      .ok (leaves.map Leaf.zeroBased) := by
  induction leaves generalizing front with
  | nil => simp [leavesFrom, kind_eos]
  | cons leaf rest ih =>
    obtain ⟨⟨here, reads⟩, others⟩ := List.forall_mem_cons.mp holds
    rw [List.map_cons] at whole
    have later := @ih (front ++ [⟨UInt32.ofNat leaf.token, leaf.payload⟩]) (by simpa using whole) others
    rw [List.length_append, List.length_singleton] at later
    exact leavesFrom_cons covers here reads (by simp [whole]) later

theorem thins_kept (covers : c.Covers g devices) {events : List Event} (admits : ∀ event ∈ events, c.Admits event)
    (fits : ∀ leaf, .shift leaf ∈ events → c.automaton.payloadFits leaf = true) :
    c.automaton.grammar.Thins (events.map (Event.mapLeaf Leaf.zeroBased)) (c.kept events) := by
  induction events with
  | nil => exact .nil
  | cons event rest ih =>
    obtain ⟨here, others⟩ := List.forall_mem_cons.mp admits
    have later := ih others fun leaf member => fits leaf (List.mem_cons_of_mem _ member)
    cases taken : c.slot? event with
    | some slot =>
      simp only [kept, List.filterMap_cons, taken, Option.map_some, List.map_cons]
      exact .keep _ later
    | none =>
      simp only [kept, List.filterMap_cons, taken, Option.map_none, List.map_cons]
      cases event with
      | accept => cases here
      | reduce rule => cases taken
      | shift leaf =>
        refine .drop ?_ later
        cases here with
        | fixed bare =>
          have fit := fits _ (List.mem_cons_self ..)
          simp only [Automaton.payloadFits] at fit
          split at fit <;> simp_all [Numbered.isFixed, Leaf.zeroBased]
        | value found => simp [slot?, covers.tokenChannel?_value found] at taken
        | copy found => simp [slot?, covers.tokenChannel?_copy found] at taken

theorem actions_layOut (c : Codec) (slots : List Slot) (truncated : Bool) : ∃ behind, (c.layOut (slots ++ [.eos]) truncated).actions =
    slots.map Slot.action ++ UInt32.ofNat Token.eos :: behind := by
  simp only [layOut, List.rightpad, List.map_append, List.append_assoc]
  exact ⟨_, rfl⟩

theorem fits_zeroBased {leaves : List Leaf} (fits : ∀ leaf ∈ leaves, c.automaton.payloadFits leaf = true) :
    ∀ leaf ∈ leaves.map Leaf.zeroBased, c.automaton.payloadFits leaf = true := by
  intro leaf member
  obtain ⟨source, inside, rfl⟩ := List.mem_map.mp member
  exact Automaton.payloadFits_zeroBased (fits source inside)

theorem slots_eq_ok (covers : c.Covers g devices) {leaves : List Leaf} (written : c.slots leaves = .ok slots) :
    (∀ leaf ∈ leaves, c.automaton.payloadFits leaf = true) ∧ ∃ forest : Forest,
      forest.Of c.automaton.grammar [.nonterminal c.automaton.grammar.start] ∧ forest.leaves = leaves ∧
      (∀ order, c.config.direction = .derivation order → slots = (forest.listing order).filterMap c.slot?) ∧
      (c.config.direction = .linear → slots = leaves.map fun leaf => ⟨UInt32.ofNat leaf.token, leaf.payload⟩) := by
  have same := covers.table.grammar
  rw [Codec.slots] at written
  cases direction : c.config.direction with
  | derivation order =>
    rw [direction] at written
    obtain ⟨events, parsed, equal⟩ := bind_eq_ok.mp written
    obtain rfl := Except.ok.inj equal
    obtain ⟨fits, forest, tree, rfl, rfl⟩ := (Automaton.parse_eq_ok_iff covers.table g.number_lawful order).mp parsed
    refine ⟨fits, forest, same ▸ tree, rfl, fun other equal => ?_, nofun⟩
    obtain rfl := Direction.derivation.inj equal
    rw [List.filterMap_append]
    exact List.append_nil _
  | linear =>
    rw [direction] at written
    obtain ⟨events, parsed, equal⟩ := bind_eq_ok.mp written
    obtain ⟨fits, forest, tree, rfl, rfl⟩ := (Automaton.parse_eq_ok_iff covers.table g.number_lawful .bottomUp).mp parsed
    exact ⟨fits, forest, same ▸ tree, rfl, nofun, fun _ => (Except.ok.inj equal).symm⟩

theorem kind_leaf (covers : c.Covers g devices) (small : c.actionCount ≤ 2 ^ 32) (linear : c.isLinear = true) {leaf : Leaf}
    (fits : c.automaton.payloadFits leaf = true) : Token.controls ≤ leaf.token ∧ leaf.token < c.actionCount ∧
      c.kind (UInt32.ofNat leaf.token) = .token leaf.token := by
  obtain ⟨terminal, named, _⟩ := (Grammar.payloadFits_iff covers.table.grammar).mp fits
  obtain ⟨above, below⟩ := Numbered.bounds_of_terminal? named
  have inside : leaf.token < c.actionCount := by simpa [actionCount, linear] using below
  exact ⟨above, inside, kind_token small linear above inside⟩

theorem admits_listing (order : Order) {forest : Forest} {symbols : NumberedSymbols} (tree : forest.Of c.automaton.grammar symbols)
    (holds : ∀ leaf ∈ forest.leaves, c.Holds leaf) : ∀ event ∈ forest.listing order, c.Admits event := by
  intro event member
  rcases tree.mem_listing member with ⟨leaf, inside, rfl⟩ | ⟨rule, inside, rfl⟩
  · exact holds leaf inside
  · exact inside

theorem thins_listing (covers : c.Covers g devices) (order : Order) {forest : Forest} {symbols : NumberedSymbols}
    (tree : forest.Of c.automaton.grammar symbols) (fits : ∀ leaf ∈ forest.leaves, c.automaton.payloadFits leaf = true)
    (holds : ∀ leaf ∈ forest.leaves, c.Holds leaf) :
    c.automaton.grammar.Thins ((forest.map Leaf.zeroBased).listing order) (c.kept (forest.listing order)) := by
  rw [Forest.listing_map]
  refine thins_kept covers (admits_listing order tree holds) fun leaf member => ?_
  rcases tree.mem_listing member with ⟨_, inside, equal⟩ | ⟨_, _, equal⟩
  · cases equal
    exact fits leaf inside
  · cases equal

private theorem leaves_of_derivation (covers : c.Covers g devices) (small : c.actionCount ≤ 2 ^ 32) {order : Order}
    (direction : c.config.direction = .derivation order) {forest : Forest}
    (tree : forest.Of c.automaton.grammar [.nonterminal c.automaton.grammar.start])
    (fits : ∀ leaf ∈ forest.leaves, c.automaton.payloadFits leaf = true) (holds : ∀ leaf ∈ forest.leaves, c.Holds leaf) :
    c.leaves (c.layOut ((forest.listing order).filterMap c.slot? ++ [.eos]) false) = .ok (forest.leaves.map Leaf.zeroBased) := by
  have derived : c.isLinear = false := by simp [isLinear, direction]
  have thins := (thins_listing covers order tree fits holds).append (.keep .accept .nil)
  have tree' := tree.map (f := Leaf.zeroBased) fun _ => rfl
  have replayed := Automaton.replay_of_tree tree' (by simpa using fits_zeroBased fits) thins
  obtain ⟨behind, actions⟩ := actions_layOut c ((forest.listing order).filterMap c.slot?) false
  have read := @eventsFrom_layOut c g _ _ false covers small derived [] (forest.listing order) rfl
    (admits_listing order tree holds) behind
  rw [Codec.leaves, direction, actions]
  simp only [List.nil_append, List.length_nil] at read
  simp only [read, bind, Except.bind, replayed, Except.mapError, Forest.leaves_map]

private theorem leaves_of_linear (covers : c.Covers g devices) (small : c.actionCount ≤ 2 ^ 32)
    (direction : c.config.direction = .linear) {forest : Forest}
    (tree : forest.Of c.automaton.grammar [.nonterminal c.automaton.grammar.start])
    (fits : ∀ leaf ∈ forest.leaves, c.automaton.payloadFits leaf = true) (holds : ∀ leaf ∈ forest.leaves, c.Holds leaf) :
    c.leaves (c.layOut ((forest.leaves.map fun leaf => ⟨UInt32.ofNat leaf.token, leaf.payload⟩) ++ [.eos]) false) =
      .ok (forest.leaves.map Leaf.zeroBased) := by
  have linear : c.isLinear = true := by simp [isLinear, direction]
  have tree' := tree.map (f := Leaf.zeroBased) fun _ => rfl
  rw [covers.table.grammar] at tree'
  have again := (Automaton.parse_eq_ok_iff covers.table g.number_lawful .bottomUp).mpr
    ⟨fits_zeroBased fits, _, tree', Forest.leaves_map _ _, rfl⟩
  obtain ⟨behind, actions⟩ := actions_layOut c (forest.leaves.map fun leaf => ⟨UInt32.ofNat leaf.token, leaf.payload⟩) false
  have read := @leavesFrom_layOut c g _ _ false covers [] forest.leaves rfl
    (fun leaf member => ⟨holds leaf member, (kind_leaf covers small linear (fits leaf member)).2.2⟩) behind
  rw [Codec.leaves, direction, actions, List.map_map]
  simp only [List.nil_append, List.length_nil] at read
  simp only [Function.comp_def, read, bind, Except.bind, again, Except.mapError, pure, Except.pure]

/-- In every direction the leaves come back from the vectors of their slots. -/
theorem leaves_layOut (covers : c.Covers g devices) (small : c.actionCount ≤ 2 ^ 32) {leaves : List Leaf}
    (holds : ∀ leaf ∈ leaves, c.Holds leaf) (written : c.slots leaves = .ok slots) :
    c.leaves (c.layOut (slots ++ [.eos]) false) = .ok (leaves.map Leaf.zeroBased) := by
  obtain ⟨fits, forest, tree, rfl, derived, linear⟩ := slots_eq_ok covers written
  cases direction : c.config.direction with
  | derivation order =>
    obtain rfl := derived order direction
    exact leaves_of_derivation covers small direction tree fits holds
  | linear =>
    obtain rfl := linear direction
    exact leaves_of_linear covers small direction tree fits holds

end Codec

end CommandLang
