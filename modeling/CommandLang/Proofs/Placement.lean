import CommandLang.Proofs.Circling
import CommandLang.Proofs.RoundTrip

/-! Where spans are found. A sentence has a say in the places of spans alone: every step of the machine does the same
whatever the places are, and so do the slots, up to the payloads that they carry. In particular a machine that never ends
does not end whatever the sentence is. -/

namespace CommandLang

def Payload.unplaced : Payload → Payload
  | .span _ _ => .span 0 0
  | payload => payload

def Leaf.unplaced (leaf : Leaf) : Leaf := ⟨leaf.token, leaf.payload.unplaced⟩

@[simp] theorem Leaf.token_unplaced (leaf : Leaf) : leaf.unplaced.token = leaf.token := rfl

def Event.unplaced : Event → Event
  | .shift leaf => .shift leaf.unplaced
  | event => event

def Slot.unplaced (slot : Slot) : Slot := ⟨slot.action, slot.payload.unplaced⟩

namespace Config

def unplaced (c : Config) : Config := ⟨c.stack, c.rest.map Leaf.unplaced, c.position, c.trace.map Event.unplaced⟩

@[simp] theorem state_unplaced (c : Config) : c.unplaced.state = c.state := rfl

@[simp] theorem position_unplaced (c : Config) : c.unplaced.position = c.position := rfl

@[simp] theorem next_unplaced (c : Config) : c.unplaced.next = c.next.unplaced := by
  cases rest : c.rest with
  | nil => simp [next, unplaced, rest, Leaf.unplaced, Payload.unplaced]
  | cons leaf more => simp [next, unplaced, rest]

end Config

def Step.unplaced : Step → Step
  | .shifted c => .shifted c.unplaced
  | .reduced c => .reduced c.unplaced
  | .accepted c => .accepted c.unplaced
  | .rejected error => .rejected error

/-- The bounds of the span of a leaf, if it has one, are in order. -/
def Leaf.Ordered (leaf : Leaf) : Prop := ∀ first last, leaf.payload = .span first last → first ≤ last

namespace Automaton

variable {a : Automaton} {leaves : List Leaf}

theorem reduce_unplaced (c : Config) (rule : Nat) : a.reduce c.unplaced rule = (a.reduce c rule).unplaced := by
  simp only [reduce, Config.next_unplaced, Config.state_unplaced]
  split
  · rfl
  · dsimp only [Config.unplaced]
    split <;> rfl

theorem step_unplaced (c : Config) : a.step c.unplaced = (a.step c).unplaced := by
  simp only [step, Config.next_unplaced, Config.state_unplaced, Leaf.token_unplaced]
  split
  · simp [Step.unplaced, Config.unplaced, Event.unplaced, List.map_tail]
  · exact reduce_unplaced c _
  · rfl
  · rfl

theorem settle_unplaced (limit : Nat) (c : Config) : a.settle limit c.unplaced = (a.settle limit c).unplaced := by
  induction limit generalizing c with
  | zero => rfl
  | succ limit ih =>
    rw [settle, settle, step_unplaced]
    cases a.step c with
    | reduced d => exact ih d
    | _ => rfl

theorem run_unplaced (rounds : Nat) (c : Config) :
    a.run rounds c.unplaced = (a.run rounds c).map (List.map Event.unplaced) := by
  induction rounds generalizing c with
  | zero => simp [run, Except.map]
  | succ rounds ih =>
    have limit : a.reductionLimit c.unplaced = a.reductionLimit c := rfl
    rw [run, run, limit, settle_unplaced]
    cases a.settle (a.reductionLimit c) c with
    | shifted d => exact ih d
    | reduced d => simp [Step.unplaced, Except.map]
    | accepted d => simp [Step.unplaced, Config.unplaced, Except.map]
    | rejected => rfl

theorem gather_unplaced (trees : List (List Event)) (event : Event) :
    a.gather (trees.map (List.map Event.unplaced)) event.unplaced = (a.gather trees event).map (List.map Event.unplaced) := by
  cases event <;> simp [gather, Event.unplaced, List.map_flatten, List.map_take, List.map_drop, List.map_reverse]

theorem preorder_unplaced (events : List Event) :
    a.preorder (events.map Event.unplaced) = (a.preorder events).map Event.unplaced := by
  have gathered : ∀ trees : List (List Event), (events.map Event.unplaced).foldl a.gather (trees.map (List.map Event.unplaced)) =
      (events.foldl a.gather trees).map (List.map Event.unplaced) := by
    induction events with
    | nil => exact fun _ => rfl
    | cons event events ih =>
      intro trees
      rw [List.map_cons, List.foldl_cons, List.foldl_cons, gather_unplaced, ih]
  have whole := gathered []
  rw [List.map_nil] at whole
  simp [preorder, whole, List.map_flatten, List.map_reverse, Event.unplaced]

theorem payloadFits_unplaced {leaf : Leaf} (ordered : leaf.Ordered) : a.payloadFits leaf.unplaced = a.payloadFits leaf := by
  obtain ⟨token, payload⟩ := leaf
  cases payload with
  | span first last =>
    have inside : first ≤ last := ordered first last rfl
    simp only [payloadFits, Leaf.unplaced, Payload.unplaced]
    cases a.grammar.terminal? token with
    | none => rfl
    | some terminal => cases terminal <;> simp [inside]
  | _ => rfl

theorem leafFault?_unplaced (ordered : ∀ leaf ∈ leaves, leaf.Ordered) (position : Nat) :
    a.leafFault? position (leaves.map Leaf.unplaced) = a.leafFault? position leaves := by
  induction leaves generalizing position with
  | nil => rfl
  | cons leaf rest ih =>
    rw [List.forall_mem_cons] at ordered
    rw [List.map_cons, leafFault?, leafFault?, payloadFits_unplaced ordered.1, Leaf.token_unplaced, ih ordered.2]

theorem parse_unplaced (ordered : ∀ leaf ∈ leaves, leaf.Ordered) (order : Order) :
    a.parse order (leaves.map Leaf.unplaced) = (a.parse order leaves).map (List.map Event.unplaced) := by
  have bottomUp : a.parseBottomUp (leaves.map Leaf.unplaced) = (a.parseBottomUp leaves).map (List.map Event.unplaced) := by
    rw [parseBottomUp, parseBottomUp, leafFault?_unplaced ordered, List.length_map]
    cases a.leafFault? 0 leaves with
    | some => rfl
    | none => exact run_unplaced _ (.initial leaves)
  cases order with
  | bottomUp => exact bottomUp
  | topDown =>
    rw [parse, parse, bottomUp]
    cases a.parseBottomUp leaves with
    | error => rfl
    | ok events => exact congrArg Except.ok (preorder_unplaced events)

end Automaton

/-- Two vectors of a codec are the same but for the bounds of spans, each of which stands beside an action of its class. -/
structure ActionVectors.Agrees (c : Codec) (v w : ActionVectors) : Prop where
  actions : v.actions = w.actions
  values : v.values = w.values
  length : v.length = w.length
  truncated : v.truncated = w.truncated
  classes : v.spans.keys = w.spans.keys
  spans : ∀ (name : String) (left right : CopySpans), v.spans.get? name = some left → w.spans.get? name = some right →
    left.first.length = right.first.length ∧ left.last.length = right.last.length ∧
    ∀ position : Nat, left.first[position]? ≠ right.first[position]? ∨ left.last[position]? ≠ right.last[position]? →
      ∃ action number channel, v.actions[position]? = some action ∧ c.channel? action = some (.copy number) ∧
        c.copies[number]? = some channel ∧ channel.name = name

namespace Codec

variable {c : Codec} {leaves : List Leaf}

theorem ordered_leaf (sentence : List String) (term : Term) : (c.leaf sentence term).Ordered := by
  intro first last spanned
  rw [leaf] at spanned
  split at spanned
  · cases spanned
  · cases spanned
  next words _ =>
    obtain ⟨rfl, rfl⟩ := Payload.span.inj spanned
    rw [locate]
    split
    · exact Nat.le_refl _
    next some =>
      have positive := List.length_pos_iff.mpr (fun none => some (List.isEmpty_iff.mpr none))
      split
      · split
        · exact Nat.add_le_add_left positive _
        · exact Nat.le_refl _
      · exact Nat.le_refl _

theorem unplaced_leaf (sentence other : List String) (term : Term) :
    (c.leaf sentence term).unplaced = (c.leaf other term).unplaced := by
  rw [leaf, leaf]
  cases term.value <;> rfl

theorem slot?_unplaced (event : Event) : c.slot? event.unplaced = (c.slot? event).map Slot.unplaced := by
  cases event with
  | shift leaf =>
    simp only [slot?, Event.unplaced, Leaf.token_unplaced, Option.map_map]
    congr 1
    funext channel
    cases channel <;> rfl
  | _ => rfl

theorem slots_unplaced (ordered : ∀ leaf ∈ leaves, leaf.Ordered) :
    c.slots (leaves.map Leaf.unplaced) = (c.slots leaves).map (List.map Slot.unplaced) := by
  rw [slots, slots]
  split
  next order _ =>
    rw [c.automaton.parse_unplaced ordered]
    cases c.automaton.parse order leaves with
    | error => rfl
    | ok events =>
      refine congrArg Except.ok ?_
      rw [List.filterMap_map, List.map_filterMap]
      congr 1
      exact funext slot?_unplaced
  next =>
    rw [Automaton.parse_unplaced ordered]
    cases c.automaton.parse .bottomUp leaves with
    | error => rfl
    | ok =>
      refine congrArg Except.ok ?_
      simp [Slot.unplaced, Leaf.unplaced]

theorem truncate_unplaced (limit : Option Nat) (slots : List Slot) :
    truncate limit (slots.map Slot.unplaced) = ((truncate limit slots).1.map Slot.unplaced, (truncate limit slots).2) := by
  cases limit with
  | none => rfl
  | some length =>
    simp only [truncate, List.length_map]
    split
    · simp [List.map_take, Slot.unplaced, Slot.eos, Payload.unplaced]
    · rfl

theorem placeEntry_unplaced (number : Nat) (slot : Slot) : c.placeEntry number slot.unplaced = c.placeEntry number slot := by
  obtain ⟨action, payload⟩ := slot
  cases payload with
  | span =>
    simp only [placeEntry, Slot.unplaced, Payload.unplaced]
    cases c.channel? action with
    | none => rfl
    | some channel => cases channel <;> rfl
  | _ => rfl

theorem spanEntry_of_other {number : Nat} {slot : Slot} (other : c.channel? slot.action ≠ some (.copy number)) :
    c.spanEntry number slot = (0, 0) := by
  rw [spanEntry]
  split
  next found _ =>
    split
    next same => exact absurd (same ▸ found) other
    next => rfl
  · rfl

section

variable {α : Type} {slots others : List Slot} (same : slots.map Slot.unplaced = others.map Slot.unplaced)

include same

theorem length_eq_of_unplaced : slots.length = others.length := by
  simpa using congrArg List.length same

theorem map_eq_of_unplaced {entry : Slot → α} (placeless : ∀ slot, entry slot.unplaced = entry slot) :
    slots.map entry = others.map entry := by
  have whole := congrArg (List.map entry) same
  simpa only [List.map_map, Function.comp_def, placeless] using whole

/-- Where columns differ there are two slots with one action and different entries. -/
theorem exists_slots_of_ne (entry : Slot → α) {filler : α} {width position : Nat}
    (differs : ((slots.map entry).rightpad width filler)[position]? ≠ ((others.map entry).rightpad width filler)[position]?) :
    ∃ slot other, slots[position]? = some slot ∧ others[position]? = some other ∧ slot.action = other.action ∧
      entry slot ≠ entry other := by
  have lengths := length_eq_of_unplaced same
  by_cases inside : position < slots.length
  · have place := congrArg (fun slots : List Slot => slots[position]?) same
    have inside' : position < others.length := lengths ▸ inside
    refine ⟨slots[position], others[position], by simp, by simp, ?_, ?_⟩
    · have image : slots[position].unplaced = others[position].unplaced := by simpa [inside, inside'] using place
      exact (Slot.mk.inj image).1
    · intro equal
      apply differs
      rw [List.rightpad, List.rightpad, List.getElem?_append_left (by simpa using inside),
        List.getElem?_append_left (by simpa using inside')]
      simp [inside, inside', equal]
  · apply absurd _ differs
    have inside' : ¬ position < others.length := lengths ▸ inside
    rw [List.rightpad, List.rightpad, List.getElem?_append_right (by simpa using inside),
      List.getElem?_append_right (by simpa using inside'), List.length_map, List.length_map, lengths]

end

/-- Slots that differ in the places of spans alone are laid out as vectors that differ in their bounds alone. -/
theorem layOut_agrees {slots others : List Slot} (same : slots.map Slot.unplaced = others.map Slot.unplaced) (truncated : Bool) :
    (c.layOut slots truncated).Agrees c (c.layOut others truncated) := by
  have lengths := length_eq_of_unplaced same
  refine ⟨?_, ?_, lengths, rfl, ?_, ?_⟩
  · have actions : slots.map Slot.action = others.map Slot.action := map_eq_of_unplaced same fun _ => rfl
    simp only [layOut, lengths, actions]
  · have places : ∀ number, slots.map (c.placeEntry number) = others.map (c.placeEntry number) := fun number =>
      map_eq_of_unplaced same (placeEntry_unplaced number)
    simp only [layOut, lengths, places]
  · exact OrderedMap.keys_ofList_map c.copies.zipIdx (fun entry => entry.1.name) _ _
  · intro name left right found found'
    rw [layOut, OrderedMap.get?_ofList_map c.copies.zipIdx (fun entry => entry.1.name), Option.map_eq_some_iff] at found found'
    obtain ⟨⟨channel, number⟩, last, rfl⟩ := found
    obtain ⟨entry, last', rfl⟩ := found'
    obtain rfl : entry = (channel, number) := Option.some.inj (last'.symm.trans last)
    have named : channel.name = name := by simpa using List.find?_some last
    have listed : c.copies[number]? = some channel :=
      List.mem_zipIdx_iff_getElem?.mp (List.mem_reverse.mp (List.mem_of_find?_eq_some last))
    refine ⟨by simp [lengths], by simp [lengths], fun position differs => ?_⟩
    simp only [lengths] at differs
    obtain ⟨slot, other, placed, action, apart⟩ : ∃ slot other, slots[position]? = some slot ∧ slot.action = other.action ∧
        c.spanEntry number slot ≠ c.spanEntry number other := by
      rcases differs with first | second
      · obtain ⟨slot, other, placed, _, action, apart⟩ := exists_slots_of_ne same (fun slot => (c.spanEntry number slot).1) first
        exact ⟨slot, other, placed, action, fun equal => apart (congrArg Prod.fst equal)⟩
      · obtain ⟨slot, other, placed, _, action, apart⟩ := exists_slots_of_ne same (fun slot => (c.spanEntry number slot).2) second
        exact ⟨slot, other, placed, action, fun equal => apart (congrArg Prod.snd equal)⟩
    have here : (c.layOut slots truncated).actions[position]? = some slot.action := by
      have inside := (List.getElem?_eq_some_iff.mp placed).1
      simp only [layOut, List.rightpad]
      rw [List.getElem?_append_left (by simpa using inside), List.getElem?_map, placed, Option.map_some]
    have own : c.channel? slot.action = some (.copy number) := by
      by_contra foreign
      exact apart ((spanEntry_of_other foreign).trans (spanEntry_of_other (action ▸ foreign)).symm)
    exact ⟨slot.action, number, channel, here, own, listed, named⟩

/-- Whatever the sentence is, the outcome of a program is the same but for the bounds of its spans. -/
theorem encode_alike (c : Codec) (program : String) (sentence other : List String) :
    (∃ fault, c.encode sentence program = .error fault ∧ c.encode other program = .error fault) ∨
    ∃ v w, c.encode sentence program = .ok v ∧ c.encode other program = .ok w ∧ v.Agrees c w := by
  cases read : c.vocabulary.terms program with
  | error fault =>
    have failed : ∀ sentence, c.encode sentence program = .error (.vocabulary fault) := fun sentence =>
      bind_eq_error.mpr (Or.inl (mapError_eq_error.mpr ⟨fault, read, rfl⟩))
    exact Or.inl ⟨_, failed sentence, failed other⟩
  | ok terms =>
    have failed : ∀ {sentence fault}, c.slots (terms.map (c.leaf sentence)) = .error fault →
        c.encode sentence program = .error (.parse fault) := fun refused =>
      bind_eq_error.mpr (Or.inr ⟨terms, mapError_eq_ok.mpr read,
        bind_eq_error.mpr (Or.inl (mapError_eq_error.mpr ⟨_, refused, rfl⟩))⟩)
    have encoded : ∀ {sentence slots}, c.slots (terms.map (c.leaf sentence)) = .ok slots → c.encode sentence program =
        .ok (c.layOut (truncate c.config.maxLength (slots ++ [.eos])).1 (truncate c.config.maxLength (slots ++ [.eos])).2) :=
      fun written => bind_eq_ok.mpr ⟨terms, mapError_eq_ok.mpr read, bind_eq_ok.mpr ⟨_, mapError_eq_ok.mpr written, rfl⟩⟩
    have ordered : ∀ sentence, ∀ leaf ∈ terms.map (c.leaf sentence), leaf.Ordered := fun sentence =>
      List.forall_mem_map.mpr fun term _ => ordered_leaf sentence term
    have shared : (terms.map (c.leaf sentence)).map Leaf.unplaced = (terms.map (c.leaf other)).map Leaf.unplaced := by
      simp [unplaced_leaf sentence other]
    have written := slots_unplaced (c := c) (ordered sentence)
    rw [shared, slots_unplaced (ordered other)] at written
    cases first : c.slots (terms.map (c.leaf sentence)) with
    | error fault =>
      rw [first] at written
      exact Or.inl ⟨_, failed first, failed (map_eq_error.mp written)⟩
    | ok slots =>
      rw [first] at written
      obtain ⟨others, second, same⟩ := map_eq_ok.mp written
      have cut := truncate_unplaced c.config.maxLength (slots ++ [.eos])
      rw [List.map_append, ← same, ← List.map_append, truncate_unplaced] at cut
      obtain ⟨kept, truncated⟩ := Prod.mk.inj cut
      refine Or.inr ⟨_, _, encoded first, encoded second, ?_⟩
      rw [truncated]
      exact layOut_agrees kept.symm _

theorem slots_eq_error {fault : ParseError} :
    c.slots leaves = .error fault ↔ c.automaton.parse .bottomUp leaves = .error fault := by
  rw [slots]
  split
  next order _ =>
    simp only [bind_eq_error, pure, Except.pure, reduceCtorEq, and_false, exists_false, or_false]
    exact c.automaton.parse_eq_error_iff order
  next => simp only [bind_eq_error, pure, Except.pure, reduceCtorEq, and_false, exists_false, or_false]

/-- Writing a program comes to reductions that never end. -/
def EncodesForever (c : Codec) (sentence : List String) (program : String) : Prop :=
  ∃ terms, c.vocabulary.terms program = .ok terms ∧
    (∀ leaf ∈ terms.map (c.leaf sentence), c.automaton.payloadFits leaf = true) ∧
    c.automaton.NeverEnds (terms.map (c.leaf sentence))

section

variable {g : Grammar} {devices : OrderedMap String String} {sentence : List String} {program : String}
  (covers : c.Covers g devices)

include covers

theorem encode_endless_iff :
    (∃ position token, c.encode sentence program = .error (.parse (.endless position token))) ↔
      c.EncodesForever sentence program := by
  constructor
  · rintro ⟨position, token, given⟩
    rcases bind_eq_error.mp given with unread | ⟨terms, read, behind⟩
    · obtain ⟨_, _, other⟩ := mapError_eq_error.mp unread
      cases other
    · rcases bind_eq_error.mp behind with unwritten | ⟨_, _, impossible⟩
      · obtain ⟨fault, unwritten, same⟩ := mapError_eq_error.mp unwritten
        obtain rfl := CodecError.parse.inj same
        exact ⟨terms, mapError_eq_ok.mp read,
          (Automaton.parse_endless_iff covers.table g.number_lawful).mp ⟨position, token, slots_eq_error.mp unwritten⟩⟩
      · cases impossible
  · rintro ⟨terms, read, endless⟩
    obtain ⟨position, token, unparsed⟩ := (Automaton.parse_endless_iff covers.table g.number_lawful).mpr endless
    refine ⟨position, token, bind_eq_error.mpr (Or.inr ⟨terms, mapError_eq_ok.mpr read, ?_⟩)⟩
    exact bind_eq_error.mpr (Or.inl (mapError_eq_error.mpr ⟨_, slots_eq_error.mpr unparsed, rfl⟩))

/-- If every nonterminal derives something, writing a program comes to an end. -/
theorem not_encodesForever (productive : g.Productive) : ¬ c.EncodesForever sentence program := by
  rintro ⟨_, _, _, forever⟩
  exact Automaton.not_neverEnds covers.table g.number_lawful (Grammar.number_productive productive) forever

end

/-- Whatever the sentence is, a program is written in the same way but for the bounds of its spans, or it is not written
for the same reason, or writing it never ends. -/
theorem encode_agrees {language : Language} {config : CodecConfig} (assembled : ofLanguage language config = .ok c)
    (program : String) (sentence other : List String) :
    (∃ v w, c.encode sentence program = .ok v ∧ c.encode other program = .ok w ∧ v.Agrees c w) ∨
    (∃ fault, (∀ position token, fault ≠ .parse (.endless position token)) ∧
      c.encode sentence program = .error fault ∧ c.encode other program = .error fault) ∨
    (c.EncodesForever sentence program ∧ c.EncodesForever other program) := by
  obtain ⟨g, covers, _⟩ := covers_of_ofLanguage assembled
  rcases c.encode_alike program sentence other with ⟨fault, failed, failed'⟩ | written
  · by_cases endless : ∃ position token, fault = .parse (.endless position token)
    · obtain ⟨position, token, rfl⟩ := endless
      exact Or.inr (Or.inr ⟨(encode_endless_iff covers).mp ⟨_, _, failed⟩, (encode_endless_iff covers).mp ⟨_, _, failed'⟩⟩)
    · exact Or.inr (Or.inl ⟨fault, fun position token same => endless ⟨position, token, same⟩, failed, failed'⟩)
  · exact Or.inl written

theorem encode_agrees_errand : ∃ c v w, ofLanguage errandLanguage errandConfig = .ok c ∧
    c.encode ["say", "it"] "send < it >" = .ok v ∧ c.encode [] "send < it >" = .ok w ∧ v.Agrees c w := by
  have checked : (ofLanguage errandLanguage errandConfig).toOption.bind (fun c =>
      (c.encode ["say", "it"] "send < it >").toOption.map ActionVectors.truncated) = some false := by decide +kernel
  obtain ⟨c, assembled, checked⟩ := Option.bind_eq_some_iff.mp checked
  obtain ⟨v, encoded, _⟩ := Option.map_eq_some_iff.mp checked
  have assembled := Grammar.eq_ok_of_toOption assembled
  have encoded := Grammar.eq_ok_of_toOption encoded
  obtain ⟨g, covers, _, _, source⟩ := covers_of_ofLanguage assembled
  obtain rfl : Grammar.errand = g := Except.ok.inj source
  rcases encode_agrees assembled "send < it >" ["say", "it"] [] with ⟨v, w, written, written', agrees⟩ |
    ⟨_, _, failed, _⟩ | ⟨forever, _⟩
  · exact ⟨c, v, w, assembled, written, written', agrees⟩
  · cases encoded.symm.trans failed
  · exact absurd forever (not_encodesForever covers Grammar.errand_productive)

/-- Writing `y t` does not come to an end, whatever the sentence is. -/
theorem circling_encodes_forever : ∃ c, ofLanguage ⟨Grammar.circling, ∅, false⟩ errandConfig = .ok c ∧
    ∀ sentence, c.EncodesForever sentence "y t" := by
  have checked : (ofLanguage ⟨Grammar.circling, ∅, false⟩ errandConfig).toOption.map (fun c =>
      (c.vocabulary.terms "y t").toOption) = some (some [⟨4, .none⟩, ⟨3, .none⟩]) := by decide +kernel
  obtain ⟨c, assembled, read⟩ := Option.map_eq_some_iff.mp checked
  have assembled := Grammar.eq_ok_of_toOption assembled
  obtain ⟨_, g, a, source, built, rfl⟩ := ofLanguage_eq_ok assembled
  obtain rfl : Grammar.circling = g := Except.ok.inj source
  exact ⟨_, assembled, fun sentence =>
    ⟨_, Grammar.eq_ok_of_toOption read, (Grammar.circling_run built).1, Grammar.circling_neverEnds built⟩⟩

end Codec

end CommandLang
