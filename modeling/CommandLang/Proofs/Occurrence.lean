import CommandLang.Proofs.Canonicity
import CommandLang.Proofs.Shape

/-! Where copied spans point to. The copy slots of vectors belong to the spans of the program, one after the other, and
hold the bounds of the first occurrence in the sentence, or of the last position of the input. A bound takes 32 bits
in vectors, so limits of the input beyond that are not told. -/

namespace CommandLang

/-- The bounds of a span under a limit of the input: its first occurrence if this ends below the limit, and otherwise
the last position. -/
inductive Points (limit : Nat) (sentence words : List String) : Nat → Nat → Prop where
  | found {position : Nat} (nonempty : words ≠ []) (first : FirstAt words sentence position)
      (near : position + words.length ≤ limit - 1) : Points limit sentence words (position + 1) (position + words.length)
  | missing (absent : words ≠ [] → ∀ position, FirstAt words sentence position → limit - 1 < position + words.length) :
      Points limit sentence words (limit - 1) (limit - 1)

theorem firstAt_of_firstOccurrence {span sentence : List String} {position : Nat}
    (found : firstOccurrence span sentence = some position) : FirstAt span sentence position := by
  induction sentence generalizing position with
  | nil =>
    rw [firstOccurrence] at found
    split at found
    next empty =>
      obtain rfl := Option.some.inj found
      exact ⟨by simp [List.isEmpty_iff.mp empty], fun earlier before => absurd before (Nat.not_lt_zero _)⟩
    next => cases found
  | cons word rest ih =>
    rw [firstOccurrence] at found
    split at found
    next here =>
      obtain rfl := Option.some.inj found
      exact ⟨List.isPrefixOf_iff_prefix.mp here, fun earlier before => absurd before (Nat.not_lt_zero _)⟩
    next absent =>
      obtain ⟨position, later, rfl⟩ := Option.map_eq_some_iff.mp found
      obtain ⟨there, before⟩ := ih later
      refine ⟨there, fun earlier below => ?_⟩
      cases earlier with
      | zero => exact fun here => absent (List.isPrefixOf_iff_prefix.mpr here)
      | succ earlier => exact before earlier (Nat.lt_of_succ_lt_succ below)

namespace Codec

variable {c : Codec} {g : Grammar} {devices : OrderedMap String String} {sentence : List String} {slots : List Slot}
  {leaves : List Leaf} {position number : Nat} {action : UInt32}

theorem locate_points (c : Codec) (sentence words : List String) :
    Points c.config.maxInputLength sentence words (c.locate sentence words).1 (c.locate sentence words).2 := by
  rw [locate]
  split
  next empty => exact .missing fun nonempty => absurd (List.isEmpty_iff.mp empty) nonempty
  next filled =>
    have nonempty : words ≠ [] := fun empty => filled (List.isEmpty_iff.mpr empty)
    have positive := List.length_pos_iff.mpr nonempty
    split
    next start occurs =>
      split
      next near => exact .found nonempty (firstAt_of_firstOccurrence occurs) (by omega)
      next far =>
        refine .missing fun _ position first => ?_
        obtain rfl := Option.some.inj (occurs.symm.trans (firstOccurrence_eq_some nonempty first))
        omega
    next absent =>
      refine .missing fun _ position first => ?_
      cases absent.symm.trans (firstOccurrence_eq_some nonempty first)

/-- The copy slots of vectors in their order: the numbers of their classes, with what the channels of the classes hold
there. -/
def copied (c : Codec) (v : ActionVectors) : List (Nat × Option Payload) :=
  (v.actions.take v.length).zipIdx.filterMap fun (action, position) =>
    match c.channel? action with
    | some (.copy number) => some (number, c.entry v position (.copy number))
    | _ => none

/-- The spans of terms in their order, with the numbers of their classes. -/
def quoted (c : Codec) (terms : List Term) : List (Nat × List String) :=
  terms.filterMap fun term =>
    match c.tokenChannel? term.token, term.value with
    | some (.copy number), .words words => some (number, words)
    | _, _ => none

def located (c : Codec) (sentence : List String) (span : Nat × List String) : Nat × Payload :=
  (span.1, .span (c.locate sentence span.2).1 (c.locate sentence span.2).2)

def held? (c : Codec) (slot : Slot) : Option (Channel × Payload) :=
  (c.channel? slot.action).map fun channel => (channel, slot.payload)

def owned? (c : Codec) (leaf : Leaf) : Option (Channel × Payload) :=
  (c.tokenChannel? leaf.token).map fun channel => (channel, leaf.payload)

def copyOf? : Channel × Payload → Option (Nat × Payload)
  | (.copy number, payload) => some (number, payload)
  | (.value _, _) => none

private theorem held?_of_event (small : c.actionCount ≤ 2 ^ 32) (derived : c.isLinear = false) {event : Event}
    (ruled : ∀ rule, event = .reduce rule → rule < c.ruleCount) :
    (c.slot? event).bind c.held? = event.leaf?.bind c.owned? := by
  cases event with
  | accept => rfl
  | reduce rule =>
    have bare : c.channel? (UInt32.ofNat (Token.controls + rule)) = none := by
      simp only [channel?, kind_reduce small derived (ruled rule rfl)]
    simp only [slot?, Option.bind_some, held?, bare, Option.map_none, Event.leaf?, Option.bind_none]
  | shift leaf =>
    rw [slot?_shift]
    cases own : c.tokenChannel? leaf.token with
    | none => simp [Event.leaf?, owned?, own]
    | some channel => simp [Event.leaf?, owned?, own, held?, channel?_actionOf small derived own]

theorem filterMap_held? (covers : c.Covers g devices) (small : c.actionCount ≤ 2 ^ 32)
    (written : c.slots leaves = .ok slots) : slots.filterMap c.held? = leaves.filterMap c.owned? := by
  obtain ⟨fits, forest, tree, rfl, derivation, tokens⟩ := slots_eq_ok covers written
  cases direction : c.config.direction with
  | derivation order =>
    have derived : c.isLinear = false := by simp [isLinear, direction]
    obtain rfl := derivation order direction
    have step : ∀ event ∈ forest.listing order, (c.slot? event).bind c.held? = event.leaf?.bind c.owned? := by
      intro event member
      refine held?_of_event small derived ?_
      rintro rule rfl
      rcases tree.mem_listing member with ⟨_, _, same⟩ | ⟨_, below, same⟩
      · cases same
      · cases same
        exact below
    rw [List.filterMap_filterMap, List.filterMap_congr step, ← List.filterMap_filterMap, forest.filterMap_leaf?_listing]
  | linear =>
    have linear : c.isLinear = true := by simp [isLinear, direction]
    obtain rfl := tokens direction
    rw [List.filterMap_map]
    refine List.filterMap_congr fun leaf member => ?_
    obtain ⟨_, _, kind⟩ := kind_leaf covers small linear (fits leaf member)
    simp [held?, owned?, channel?, kind]

theorem lt_of_channel?_copy (reads : c.channel? action = some (.copy number)) : number < c.copies.length := by
  rw [channel?] at reads
  split at reads
  next other kind =>
    obtain rfl := Channel.copy.inj (Option.some.inj reads)
    exact (kind_eq_iff.mp kind).2.1
  next => cases reads
  next => exact lt_of_tokenChannel?_copy reads
  next => cases reads

theorem entry_layOut (truncated : Bool) (covers : c.Covers g devices) {slot : Slot} (placed : slots[position]? = some slot)
    (reads : c.channel? slot.action = some (.copy number)) (carries : c.Carries (c.channel? slot.action) slot.payload) :
    c.entry (c.layOut slots truncated) position (.copy number) = some slot.payload.wrapped := by
  obtain ⟨first, last, payload, _⟩ := carries.bounded number reads
  obtain ⟨action, _⟩ := slot
  subst payload
  obtain ⟨spans, stored, begins, ends⟩ :=
    covers.exists_spans truncated (List.getElem?_eq_getElem (lt_of_channel?_copy reads)) reads placed
  simp only [entry, List.getElem?_eq_getElem (lt_of_channel?_copy reads), stored, begins, ends, bind, Option.bind, pure,
    UInt32.toNat_ofNat', Payload.wrapped]

theorem copied_layOut (truncated : Bool) (covers : c.Covers g devices)
    (carries : ∀ slot ∈ slots, c.Carries (c.channel? slot.action) slot.payload) : c.copied (c.layOut slots truncated) =
      ((slots.filterMap c.held?).filterMap copyOf?).map fun held => (held.1, some held.2.wrapped) := by
  have used : (c.layOut slots truncated).actions.take (c.layOut slots truncated).length = slots.map Slot.action := by
    simp [layOut, List.rightpad]
  rw [copied, used, List.zipIdx_map, List.filterMap_map, List.filterMap_filterMap, List.map_filterMap]
  conv => rhs; rw [← List.zipIdx_map_fst 0 slots, List.filterMap_map]
  refine List.filterMap_congr ?_
  rintro ⟨slot, position⟩ member
  have placed : slots[position]? = some slot := List.mk_mem_zipIdx_iff_getElem?.mp member
  have here := carries slot (List.mem_of_getElem? placed)
  cases reads : c.channel? slot.action with
  | none => simp [held?, reads]
  | some channel =>
    cases channel with
    | value number => simp [held?, reads, copyOf?]
    | copy number => simp [held?, reads, copyOf?, entry_layOut truncated covers placed reads here]

private theorem token_leaf (term : Term) : (c.leaf sentence term).token = term.token := by
  rw [Codec.leaf]
  split <;> rfl

/-- The copied leaves of terms are the spans of the terms, with the bounds that were found for them. -/
private theorem filterMap_copyOf? {terms : List Term}
    (carries : ∀ leaf ∈ terms.map (c.leaf sentence), c.Carries (c.tokenChannel? leaf.token) leaf.payload) :
    ((terms.map (c.leaf sentence)).filterMap c.owned?).filterMap copyOf? = (c.quoted terms).map (c.located sentence) := by
  rw [List.filterMap_map, List.filterMap_filterMap, quoted, List.map_filterMap]
  refine List.filterMap_congr fun term member => ?_
  have here := carries _ (List.mem_map_of_mem member)
  rw [token_leaf] at here
  simp only [Function.comp_apply, owned?, token_leaf]
  cases own : c.tokenChannel? term.token with
  | none => simp
  | some channel =>
    cases channel with
    | value number => simp [copyOf?]
    | copy number =>
      obtain ⟨first, last, payload, _⟩ := here.bounded number own
      obtain ⟨token, value⟩ := term
      cases value with
      | words words => simp [copyOf?, Codec.leaf, located]
      | none => cases payload
      | index place => cases payload

/-- An entry of a copy slot tells a span: it has the class of the span and the bounds that the span points to, as far
as they fit 32 bits. -/
def Marks (limit : Nat) (sentence : List String) (entry : Nat × Option Payload) (span : Nat × List String) : Prop :=
  entry.1 = span.1 ∧ ∃ first last, Points limit sentence span.2 first last ∧ 1 ≤ first ∧ first ≤ last ∧ last ≤ limit - 1 ∧
    entry.2 = some (.span (first % 2 ^ 32) (last % 2 ^ 32)) ∧ (limit ≤ 2 ^ 32 → entry.2 = some (.span first last))

private theorem marks_locate (wide : 2 ≤ c.config.maxInputLength) (sentence : List String) (span : Nat × List String) :
    Marks c.config.maxInputLength sentence ((c.located sentence span).1, some (c.located sentence span).2.wrapped) span := by
  obtain ⟨above, ordered, near⟩ := c.locate_bounds wide sentence span.2
  refine ⟨rfl, _, _, c.locate_points sentence span.2, above, ordered, by omega, rfl, fun inputs => ?_⟩
  rw [located, Payload.wrapped, Nat.mod_eq_of_lt (by omega), Nat.mod_eq_of_lt (by omega)]

/-- What is left of slots when they are cut: the first of them, and all if there was room. -/
private theorem exists_truncate_eq {maxLength : Option Nat} (positive : ∀ length, maxLength = some length → 0 < length)
    (slots : List Slot) : ∃ front, front <+: slots ∧ (truncate maxLength (slots ++ [.eos])).1 = front ++ [.eos] ∧
    ((truncate maxLength (slots ++ [.eos])).2 = false → front = slots) := by
  cases maxLength with
  | none => exact ⟨slots, List.prefix_refl slots, rfl, fun _ => rfl⟩
  | some length =>
    rw [truncate_eq slots (positive length rfl)]
    split
    · exact ⟨_, List.take_prefix _ _, rfl, nofun⟩
    · exact ⟨slots, List.prefix_refl slots, rfl, fun _ => rfl⟩

/-- The copy slots of vectors tell the spans of the program one after the other, all of them if the vectors were not
cut short. Every span is given by the first place in the sentence where it stands, or by the last position of the
input, as far as these numbers fit 32 bits. -/
theorem copied_marks_spans {language : Language} {config : CodecConfig} {program : String} {v : ActionVectors}
    (assembled : ofLanguage language config = .ok c) (actions : c.actionCount ≤ 2 ^ 32)
    (encoded : c.encode sentence program = .ok v) :
    ∃ terms spans, c.vocabulary.terms program = .ok terms ∧ spans <+: c.quoted terms ∧
      (v.truncated = false → spans = c.quoted terms) ∧
      List.Forall₂ (Marks config.maxInputLength sentence) (c.copied v) spans := by
  obtain ⟨g, covers, rfl, sound, _⟩ := covers_of_ofLanguage assembled
  have wide := two_le_of_sound sound
  obtain ⟨terms, slots, read, written, rfl⟩ := exists_slots_of_encode encoded
  obtain ⟨front, begins, cut, whole⟩ := exists_truncate_eq (fun _ width => pos_of_sound sound width) slots
  have silent : c.channel? Slot.eos.action = none := by simp only [channel?, Slot.eos, kind_eos]
  have carries : ∀ slot ∈ front ++ [.eos], c.Carries (c.channel? slot.action) slot.payload := by
    intro slot member
    rcases List.mem_append.mp member with inside | last
    · exact (occupies_of_slots covers wide actions written slot (begins.subset inside)).carries
    · rw [List.mem_singleton.mp last, silent]
      exact carries_none
  have all : (slots.filterMap c.held?).filterMap copyOf? = (c.quoted terms).map (c.located sentence) := by
    rw [filterMap_held? covers actions written, filterMap_copyOf? (carries_of_slots covers wide written)]
  obtain ⟨spans, first, told⟩ := List.prefix_map_iff.mp (all ▸ (begins.filterMap c.held?).filterMap copyOf?)
  have used : ((front ++ [Slot.eos]).filterMap c.held?).filterMap copyOf? = (front.filterMap c.held?).filterMap copyOf? := by
    simp [held?, silent]
  refine ⟨terms, spans, read, first, fun kept => ?_, ?_⟩
  · have alike : spans.map (c.located sentence) = (c.quoted terms).map (c.located sentence) :=
      told.symm.trans (whole kept ▸ all)
    exact first.eq_of_length (by simpa using congrArg List.length alike)
  · rw [cut, copied_layOut _ covers carries, used, told, List.map_map]
    refine List.forall₂_map_left_iff.mpr (List.forall₂_same.mpr fun span _ => ?_)
    exact marks_locate wide sentence span

theorem copied_marks_spans_errand : ∃ c v, ofLanguage errandLanguage errandConfig = .ok c ∧ c.actionCount ≤ 2 ^ 32 ∧
    c.encode ["it", "and", "it", "again"] "send it to ben < it again >" = .ok v ∧
    List.Forall₂ (Marks 60 ["it", "and", "it", "again"]) (c.copied v) [(0, ["it"]), (0, ["it", "again"])] := by
  have texts : (ofLanguage errandLanguage errandConfig).toOption.bind (fun c =>
      (c.vocabulary.terms "send it to ben < it again >").toOption.map c.quoted) =
      some [(0, ["it"]), (0, ["it", "again"])] := by decide +kernel
  have checked : (ofLanguage errandLanguage errandConfig).toOption.map (fun c => (c.actionCount,
      (c.encode ["it", "and", "it", "again"] "send it to ben < it again >").toOption.map ActionVectors.truncated)) =
      some (9, some false) := by decide +kernel
  obtain ⟨c, assembled, checked⟩ := Option.map_eq_some_iff.mp checked
  obtain ⟨actions, written⟩ := Prod.mk.inj checked
  obtain ⟨v, encoded, whole⟩ := Option.map_eq_some_iff.mp written
  rw [assembled, Option.bind_some] at texts
  have assembled := Grammar.eq_ok_of_toOption assembled
  have encoded := Grammar.eq_ok_of_toOption encoded
  have small : c.actionCount ≤ 2 ^ 32 := by rw [actions]; decide
  obtain ⟨terms, spans, read, _, all, marks⟩ := copied_marks_spans assembled small encoded
  rw [read] at texts
  rw [all whole, Option.some.inj texts] at marks
  exact ⟨c, v, assembled, small, encoded, marks⟩

/-- The last position of an input with one position more than 32 bits tell is written as zero. -/
theorem copied_wraps : ∃ c v, ofLanguage errandLanguage { errandConfig with maxInputLength := 2 ^ 32 + 1 } = .ok c ∧
    c.encode ["say"] "send it to ben" = .ok v ∧ Points (2 ^ 32 + 1) ["say"] ["it"] (2 ^ 32) (2 ^ 32) ∧
    (c.vocabulary.terms "send it to ben").toOption.map c.quoted = some [(0, ["it"])] ∧
    c.copied v = [(0, some (.span 0 0))] := by
  have texts : (ofLanguage errandLanguage { errandConfig with maxInputLength := 2 ^ 32 + 1 }).toOption.bind (fun c =>
      (c.vocabulary.terms "send it to ben").toOption.map c.quoted) = some [(0, ["it"])] := by decide +kernel
  have checked : (ofLanguage errandLanguage { errandConfig with maxInputLength := 2 ^ 32 + 1 }).toOption.bind (fun c =>
      (c.encode ["say"] "send it to ben").toOption.map c.copied) = some [(0, some (.span 0 0))] := by decide +kernel
  obtain ⟨c, assembled, written⟩ := Option.bind_eq_some_iff.mp checked
  obtain ⟨v, encoded, copied⟩ := Option.map_eq_some_iff.mp written
  rw [assembled, Option.bind_some] at texts
  have points : Points (2 ^ 32 + 1) ["say"] ["it"] (2 ^ 32) (2 ^ 32) := by
    refine .missing fun _ position first => ?_
    cases firstOccurrence_eq_some (by decide) first
  exact ⟨c, v, Grammar.eq_ok_of_toOption assembled, Grammar.eq_ok_of_toOption encoded, points, texts, copied⟩

end Codec

end CommandLang
