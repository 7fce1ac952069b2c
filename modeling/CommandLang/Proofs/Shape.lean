import CommandLang.Proofs.Slots

/-! The shape of action vectors. All arrays have one width, behind the slots in use stands nothing, and a side channel
holds something only where the action is its own. Vectors with a width begin like those without one. -/

namespace CommandLang

/-- The first entries of all arrays. -/
def ActionVectors.front (v : ActionVectors) (count : Nat) :
    List UInt32 × List (String × List UInt32) × List (String × List UInt32 × List UInt32) :=
  (v.actions.take count, v.values.entries.map fun (name, places) => (name, places.take count),
    v.spans.entries.map fun (name, spans) => (name, spans.first.take count, spans.last.take count))

/-- Vectors with room for some slots only, and vectors with room for all of them. -/
structure ActionVectors.CutTo (length : Nat) (v w : ActionVectors) : Prop where
  truncated : v.truncated = true ↔ length < w.length
  whole : v.truncated = false → v.length = w.length ∧ v.front w.length = w.front w.length
  cut : v.truncated = true → v.length = length ∧ v.front (length - 1) = w.front (length - 1)

namespace Codec

def unlimited (c : Codec) : Codec := { c with config := { c.config with maxLength := none } }

variable {c : Codec} {g : Grammar} {devices : OrderedMap String String} {sentence : List String} {slots : List Slot}

def width (c : Codec) (v : ActionVectors) : Nat := c.config.maxLength.getD v.length

/-- Vectors as a codec writes them. -/
structure Shapes (c : Codec) (v : ActionVectors) : Prop where
  actions : v.actions.length = c.width v
  used : 1 ≤ v.length ∧ v.length ≤ c.width v
  ended : v.actions[v.length - 1]? = some (UInt32.ofNat Token.eos)
  running : ∀ position < v.length - 1, ∃ action, v.actions[position]? = some action ∧
    Token.controls ≤ action.toNat ∧ action.toNat < c.actionCount
  padded : ∀ position, v.length ≤ position → position < c.width v → v.actions[position]? = some (UInt32.ofNat Token.pad)
  valued : v.values.keys = c.values.map ValueChannel.name
  copied : v.spans.keys = c.copies.map CopyChannel.name
  values : ∀ number channel, c.values[number]? = some channel → ∃ places, v.values.get? channel.name = some places ∧
    places.length = c.width v ∧ ∀ (position : Nat) (action place : UInt32),
      v.actions[position]? = some action → places[position]? = some place →
      if c.channel? action = some (.value number) then place.toNat < channel.vocabulary.length else place = 0
  spans : ∀ number channel, c.copies[number]? = some channel → ∃ spans, v.spans.get? channel.name = some spans ∧
    spans.first.length = c.width v ∧ spans.last.length = c.width v ∧ ∀ (position : Nat) (action first last : UInt32),
      v.actions[position]? = some action → spans.first[position]? = some first → spans.last[position]? = some last →
      if c.channel? action = some (.copy number) then
        1 ≤ first.toNat ∧ first.toNat ≤ last.toNat ∧ last.toNat ≤ c.config.maxInputLength - 1
      else first = 0 ∧ last = 0

section columns

variable {α : Type} {position width : Nat} {filler : α} {entry : Slot → α}

private theorem length_column (fits : slots.length ≤ width) : ((slots.map entry).rightpad width filler).length = width := by
  rw [List.rightpad, List.length_append, List.length_map, List.length_replicate]
  omega

private theorem getElem?_column_of_unused (above : slots.length ≤ position) (inside : position < width) :
    ((slots.map entry).rightpad width filler)[position]? = some filler := by
  rw [List.rightpad, List.getElem?_append_right (by simpa using above), List.length_map, List.getElem?_replicate, if_pos (by omega)]

private theorem take_column {count : Nat} (inside : count ≤ slots.length) :
    ((slots.map entry).rightpad width filler).take count = (slots.take count).map entry := by
  rw [List.rightpad, List.take_append_of_le_length (by simpa using inside), List.map_take]

end columns

private theorem column_cases {position : Nat} {entry : Slot → UInt32} {value : UInt32}
    (found : (c.column slots entry)[position]? = some value) :
    (∃ slot ∈ slots, ∀ other : Slot → UInt32, (c.column slots other)[position]? = some (other slot)) ∨
      ∀ other : Slot → UInt32, (c.column slots other)[position]? = some 0 := by
  rcases Nat.lt_or_ge position slots.length with inside | above
  · exact Or.inl ⟨_, List.getElem_mem inside, fun other => getElem?_column_of_placed (List.getElem?_eq_getElem inside)⟩
  · have bound := (List.getElem?_eq_some_iff.mp found).1
    rw [column, List.rightpad, List.length_append, List.length_map, List.length_replicate] at bound
    exact Or.inr fun other => getElem?_column_of_unused above (by omega)

private theorem channel?_control {action : UInt32} (control : action.toNat < Token.start) : c.channel? action = none := by
  have either : action.toNat = Token.pad ∨ action.toNat = Token.eos := by
    simp only [Token.start, Token.pad, Token.eos] at control ⊢
    omega
  have kind : c.kind action = .pad ∨ c.kind action = .eos := by
    rcases either with pad | eos
    · exact Or.inl (by simp [kind, pad])
    · exact Or.inr (by simp [kind, eos, Token.eos, Token.pad])
  rcases kind with kind | kind <;> simp only [channel?, kind]

/-- A slot writes a place into the channel of its action, and into no other. -/
private theorem placeEntry_spec {number : Nat} {channel : ValueChannel} (found : c.values[number]? = some channel) {slot : Slot}
    (carries : c.Carries (c.channel? slot.action) slot.payload) :
    if c.channel? slot.action = some (.value number) then (c.placeEntry number slot).toNat < channel.vocabulary.length
    else c.placeEntry number slot = 0 := by
  split
  next own =>
    obtain ⟨known, place, found', payload, inside⟩ := carries.placed number own
    obtain rfl := Option.some.inj (found.symm.trans found')
    simp only [placeEntry, own, payload, if_true]
    exact Nat.lt_of_le_of_lt (by rw [UInt32.toNat_ofNat']; exact Nat.mod_le _ _) inside
  next other =>
    rw [placeEntry]
    split
    next number' place reads _ => exact if_neg fun same => other (reads.trans (by rw [same]))
    next => rfl

private theorem spanEntry_spec (inputs : c.config.maxInputLength ≤ 2 ^ 32) {number : Nat} {slot : Slot}
    (carries : c.Carries (c.channel? slot.action) slot.payload) :
    if c.channel? slot.action = some (.copy number) then
      1 ≤ (c.spanEntry number slot).1.toNat ∧ (c.spanEntry number slot).1.toNat ≤ (c.spanEntry number slot).2.toNat ∧
        (c.spanEntry number slot).2.toNat ≤ c.config.maxInputLength - 1
    else (c.spanEntry number slot).1 = 0 ∧ (c.spanEntry number slot).2 = 0 := by
  split
  next own =>
    obtain ⟨first, last, payload, above, ordered, small⟩ := carries.bounded number own
    have fits : ∀ bound ≤ last, (UInt32.ofNat bound).toNat = bound := fun bound below =>
      UInt32.toNat_ofNat_of_lt' (by simp only [UInt32.size]; omega)
    simp only [spanEntry, own, payload, if_true, fits first ordered, fits last (Nat.le_refl _)]
    omega
  next other =>
    rw [spanEntry]
    split
    next number' first last reads _ =>
      rw [if_neg fun same => other (reads.trans (by rw [same]))]
      exact ⟨rfl, rfl⟩
    next => exact ⟨rfl, rfl⟩

section

variable (carries : ∀ slot ∈ slots, c.Carries (c.channel? slot.action) slot.payload) {position number : Nat} {action : UInt32}
  (acted : (c.column slots (·.action))[position]? = some action)

include carries acted

private theorem valueColumn_spec {channel : ValueChannel} (found : c.values[number]? = some channel) {place : UInt32}
    (placed : (c.column slots (c.placeEntry number))[position]? = some place) :
    if c.channel? action = some (.value number) then place.toNat < channel.vocabulary.length else place = 0 := by
  rcases column_cases acted with ⟨slot, member, stands⟩ | empty
  · rw [stands, Option.some.injEq] at acted placed
    subst acted placed
    exact placeEntry_spec found (carries slot member)
  · rw [empty, Option.some.injEq] at acted placed
    subst acted placed
    have silent : c.channel? 0 = none := channel?_control (by decide)
    simp [silent]

private theorem spanColumns_spec (inputs : c.config.maxInputLength ≤ 2 ^ 32) {first last : UInt32}
    (begins : (c.column slots fun slot => (c.spanEntry number slot).1)[position]? = some first)
    (ends : (c.column slots fun slot => (c.spanEntry number slot).2)[position]? = some last) :
    if c.channel? action = some (.copy number) then
      1 ≤ first.toNat ∧ first.toNat ≤ last.toNat ∧ last.toNat ≤ c.config.maxInputLength - 1
    else first = 0 ∧ last = 0 := by
  rcases column_cases acted with ⟨slot, member, stands⟩ | empty
  · rw [stands, Option.some.injEq] at acted begins ends
    subst acted begins ends
    exact spanEntry_spec inputs (carries slot member)
  · rw [empty, Option.some.injEq] at acted begins ends
    subst acted begins ends
    have silent : c.channel? 0 = none := channel?_control (by decide)
    simp [silent]

end

private theorem map_fst_named {α β : Type} {items : List α} {name : α → String} {entry : α × Nat → String × β}
    (named : ∀ pair, (entry pair).1 = name pair.1) : (items.zipIdx.map entry).map Prod.fst = items.map name := by
  have names : (items.zipIdx.map entry).map Prod.fst = (items.zipIdx.map Prod.fst).map name := by
    rw [List.map_map, List.map_map]
    exact List.map_congr_left fun pair _ => named pair
  rw [names, List.zipIdx_map_fst]

namespace Covers

variable (covers : c.Covers g devices) {truncated : Bool}

include covers

private theorem values_layOut : (c.layOut slots truncated).values.entries =
    c.values.zipIdx.map fun (channel, number) => (channel.name, c.column slots (c.placeEntry number)) := by
  have distinct : (c.values.map ValueChannel.name).Nodup := covers.values_nodup.map_on
    fun a left b right same => covers.values_inj left right (Or.inl same)
  exact OrderedMap.entries_ofList (by rwa [@map_fst_named _ _ c.values ValueChannel.name _ fun _ => rfl])

private theorem spans_layOut : (c.layOut slots truncated).spans.entries =
    c.copies.zipIdx.map fun (channel, number) => (channel.name,
      ⟨c.column slots fun slot => (c.spanEntry number slot).1, c.column slots fun slot => (c.spanEntry number slot).2⟩) := by
  have distinct : (c.copies.map CopyChannel.name).Nodup := covers.copies_nodup.map_on
    fun a left b right same => covers.copies_inj left right (Or.inl same)
  exact OrderedMap.entries_ofList (by rwa [@map_fst_named _ _ c.copies CopyChannel.name _ fun _ => rfl])

theorem layOut_shapes (inputs : c.config.maxInputLength ≤ 2 ^ 32) (holds : ∀ slot ∈ slots, c.Occupies slot)
    (fits : ∀ length, c.config.maxLength = some length → slots.length < length) :
    c.Shapes (c.layOut (slots ++ [.eos]) truncated) := by
  have carries : ∀ slot ∈ slots ++ [.eos], c.Carries (c.channel? slot.action) slot.payload := by
    intro slot member
    rcases List.mem_append.mp member with inside | last
    · exact (holds slot inside).carries
    · rw [List.mem_singleton.mp last, channel?_control (by decide)]
      exact carries_none
  have within : (slots ++ [Slot.eos]).length ≤ c.width (c.layOut (slots ++ [.eos]) truncated) := by
    rw [List.length_append, List.length_singleton]
    cases width : c.config.maxLength with
    | none => simp [Codec.width, width, layOut]
    | some length => simpa [Codec.width, width] using Nat.succ_le_of_lt (fits length width)
  constructor
  case actions => exact length_column within
  case used => exact ⟨by simp [layOut], within⟩
  case ended =>
    have last : (slots ++ [Slot.eos])[slots.length]? = some .eos := by simp
    have used : (c.layOut (slots ++ [.eos]) truncated).length - 1 = slots.length := by simp [layOut]
    rw [used]
    exact getElem?_column_of_placed last
  case running =>
    intro position before
    have inside : position < slots.length := by simpa [layOut] using before
    have placed : (slots ++ [Slot.eos])[position]? = some slots[position] := by
      rw [List.getElem?_append_left inside, List.getElem?_eq_getElem inside]
    exact ⟨_, getElem?_column_of_placed placed, (holds _ (List.getElem_mem inside)).numbered⟩
  case padded => exact fun position above inside => getElem?_column_of_unused above inside
  case valued => rw [OrderedMap.keys, covers.values_layOut, @map_fst_named _ _ c.values ValueChannel.name _ fun _ => rfl]
  case copied => rw [OrderedMap.keys, covers.spans_layOut, @map_fst_named _ _ c.copies CopyChannel.name _ fun _ => rfl]
  case values =>
    intro number channel found
    refine ⟨_, covers.get?_values found, length_column within, ?_⟩
    exact fun position action place acted placed => valueColumn_spec carries acted found placed
  case spans =>
    intro number channel found
    refine ⟨_, covers.get?_spans found, length_column within, length_column within, ?_⟩
    exact fun position action first last acted begins ends => spanColumns_spec carries acted inputs begins ends

theorem front_layOut {count : Nat} (inside : count ≤ slots.length) : (c.layOut slots truncated).front count =
    ((slots.take count).map Slot.action,
      c.values.zipIdx.map fun (channel, number) => (channel.name, (slots.take count).map (c.placeEntry number)),
      c.copies.zipIdx.map fun (channel, number) => (channel.name, (slots.take count).map (fun slot => (c.spanEntry number slot).1),
        (slots.take count).map fun slot => (c.spanEntry number slot).2)) := by
  have actions : (c.layOut slots truncated).actions.take count = (slots.take count).map Slot.action := take_column inside
  rw [ActionVectors.front, actions, covers.values_layOut, covers.spans_layOut, List.map_map, List.map_map]
  simp only [Function.comp_def, column, take_column inside]

end Covers

theorem exists_slots_of_encode {program : String} {v : ActionVectors} (encoded : c.encode sentence program = .ok v) :
    ∃ terms slots, c.vocabulary.terms program = .ok terms ∧ c.slots (terms.map (c.leaf sentence)) = .ok slots ∧
      v = c.layOut (truncate c.config.maxLength (slots ++ [.eos])).1 (truncate c.config.maxLength (slots ++ [.eos])).2 := by
  obtain ⟨terms, read, encoded⟩ := bind_eq_ok.mp encoded
  obtain ⟨slots, written, same⟩ := bind_eq_ok.mp encoded
  exact ⟨terms, slots, mapError_eq_ok.mp read, mapError_eq_ok.mp written, (Except.ok.inj same).symm⟩

/-- What is left of slots if there is room for some only: the first of them, and one that accepts. -/
theorem truncate_eq (slots : List Slot) {length : Nat} (positive : 0 < length) : truncate (some length) (slots ++ [.eos]) =
    if length ≤ slots.length then (slots.take (length - 1) ++ [.eos], true) else (slots ++ [.eos], false) := by
  rw [truncate, List.length_append, List.length_singleton]
  by_cases short : length ≤ slots.length
  · rw [if_pos (by omega), if_pos short, List.take_append_of_le_length (by omega)]
  · rw [if_neg (by omega), if_neg short]

/-- Where slots begin alike, so do their vectors. -/
theorem front_unlimited (covers : c.Covers g devices) {longer : List Slot} {count : Nat} {truncated : Bool}
    (alike : slots.take count = longer.take count) (inside : count ≤ slots.length) (inside' : count ≤ longer.length) :
    (c.layOut slots truncated).front count = (c.unlimited.layOut longer false).front count := by
  have covers' : c.unlimited.Covers g devices := ⟨covers.table, covers.vocabulary, covers.copies_nodup, covers.values_nodup,
    covers.mem_copies, covers.mem_values⟩
  rw [covers.front_layOut inside, covers'.front_layOut inside', alike]
  rfl

theorem cutTo_layOut (covers : c.Covers g devices) {length : Nat} (positive : 0 < length) :
    (c.layOut (truncate (some length) (slots ++ [.eos])).1 (truncate (some length) (slots ++ [.eos])).2).CutTo length
      (c.unlimited.layOut (slots ++ [.eos]) false) := by
  have needed : (c.unlimited.layOut (slots ++ [.eos]) false).length = slots.length + 1 := by simp [layOut]
  rw [truncate_eq slots positive]
  by_cases short : length ≤ slots.length
  · rw [if_pos short]
    have used : (slots.take (length - 1) ++ [Slot.eos]).length = length := by
      rw [List.length_append, List.length_take, List.length_singleton]
      omega
    have alike : (slots.take (length - 1) ++ [Slot.eos]).take (length - 1) = (slots ++ [Slot.eos]).take (length - 1) := by
      rw [List.take_append_of_le_length (by rw [List.length_take]; omega), List.take_take, Nat.min_self,
        List.take_append_of_le_length (by omega)]
    have inside : length - 1 ≤ (slots.take (length - 1) ++ [Slot.eos]).length :=
      Nat.le_trans (Nat.sub_le ..) (Nat.le_of_eq used.symm)
    have inside' : length - 1 ≤ (slots ++ [Slot.eos]).length := by
      rw [List.length_append]
      omega
    exact { truncated := iff_of_true rfl (by omega)
            whole := fun kept => absurd kept (by simp [layOut])
            cut := fun _ => ⟨used, front_unlimited covers alike inside inside'⟩ }
  · rw [if_neg short]
    have inside : (c.unlimited.layOut (slots ++ [.eos]) false).length ≤ (slots ++ [Slot.eos]).length := Nat.le_refl _
    exact { truncated := iff_of_false (by simp [layOut]) (by omega)
            whole := fun _ => ⟨rfl, front_unlimited covers rfl inside inside⟩
            cut := fun short => absurd short (by simp [layOut]) }

/-- A language that has a codec has one without a width. -/
theorem ofLanguage_unlimited {language : Language} {config : CodecConfig} (assembled : ofLanguage language config = .ok c) :
    ofLanguage language { config with maxLength := none } = .ok c.unlimited := by
  obtain ⟨sound, g, a, source, built, rfl⟩ := ofLanguage_eq_ok assembled
  have wide := two_le_of_sound sound
  have unlimited : ({ config with maxLength := none } : CodecConfig).fault? = none := by
    rw [CodecConfig.fault?, if_neg (Option.some_ne_none 0).symm, if_neg (Nat.not_lt.mpr wide)]
  have automatic : g.automaton.mapError CodecError.build = .ok a := mapError_eq_ok.mpr built
  rw [ofLanguage, unlimited]
  split at source
  next flat =>
    have spelled : language.grammar.spellOut.mapError CodecError.grammar = .ok g := mapError_eq_ok.mpr source
    simp [flat, spelled, automatic, bind, Except.bind, pure, Except.pure, assemble, Codec.unlimited]
  next plain =>
    obtain rfl := Except.ok.inj source
    simp [plain, automatic, bind, Except.bind, pure, Except.pure, assemble, Codec.unlimited]

/-- The vectors of a codec are in shape. Where they have a width, they are those without one, or begin like them. -/
theorem encode_shapes {language : Language} {config : CodecConfig} {program : String} {v : ActionVectors}
    (assembled : ofLanguage language config = .ok c) (inputs : config.maxInputLength ≤ 2 ^ 32)
    (actions : c.actionCount ≤ 2 ^ 32) (encoded : c.encode sentence program = .ok v) :
    c.Shapes v ∧ ∀ length, config.maxLength = some length → ∃ other w,
      ofLanguage language { config with maxLength := none } = .ok other ∧ other.encode sentence program = .ok w ∧ v.CutTo length w := by
  obtain ⟨g, covers, rfl, sound, _⟩ := covers_of_ofLanguage assembled
  obtain ⟨terms, slots, read, written, rfl⟩ := exists_slots_of_encode encoded
  have holds := occupies_of_slots covers (two_le_of_sound sound) actions written
  have whole : c.unlimited.encode sentence program = .ok (c.unlimited.layOut (slots ++ [.eos]) false) :=
    bind_eq_ok.mpr ⟨terms, mapError_eq_ok.mpr read, bind_eq_ok.mpr ⟨slots, mapError_eq_ok.mpr written, rfl⟩⟩
  cases width : c.config.maxLength with
  | none => exact ⟨covers.layOut_shapes inputs holds (by simp [width]), by simp⟩
  | some length =>
    have positive : 0 < length := by
      refine Nat.pos_of_ne_zero fun zero => ?_
      simp [CodecConfig.fault?, width, zero] at sound
    refine ⟨?_, ?_⟩
    · rw [truncate_eq slots positive]
      split
      · refine covers.layOut_shapes inputs (fun slot member => holds slot (List.mem_of_mem_take member)) fun other same => ?_
        obtain rfl := Option.some.inj (width.symm.trans same)
        rw [List.length_take]
        omega
      · refine covers.layOut_shapes inputs holds fun other same => ?_
        obtain rfl := Option.some.inj (width.symm.trans same)
        omega
    · intro other same
      obtain rfl := Option.some.inj same
      exact ⟨_, _, ofLanguage_unlimited assembled, whole, cutTo_layOut covers positive⟩

theorem encode_shapes_errand : ∃ c v, ofLanguage errandLanguage { errandConfig with maxLength := some 3 } = .ok c ∧
    c.encode ["say", "it"] "send it to ben" = .ok v ∧ c.Shapes v ∧ v.truncated = true ∧ v.length = 3 ∧
    ∃ other w, ofLanguage errandLanguage errandConfig = .ok other ∧ other.encode ["say", "it"] "send it to ben" = .ok w ∧
      3 < w.length ∧ v.front 2 = w.front 2 := by
  have checked : (ofLanguage errandLanguage { errandConfig with maxLength := some 3 }).toOption.map (fun c =>
      (c.actionCount, (c.encode ["say", "it"] "send it to ben").toOption.map ActionVectors.truncated)) = some (9, some true) := by
    decide +kernel
  obtain ⟨c, assembled, checked⟩ := Option.map_eq_some_iff.mp checked
  obtain ⟨actions, written⟩ := Prod.mk.inj checked
  obtain ⟨v, encoded, truncated⟩ := Option.map_eq_some_iff.mp written
  have assembled := Grammar.eq_ok_of_toOption assembled
  have encoded := Grammar.eq_ok_of_toOption encoded
  obtain ⟨shapes, cut⟩ := encode_shapes assembled (by decide) (by rw [actions]; decide) encoded
  obtain ⟨other, w, assembled', encoded', cut⟩ := cut 3 rfl
  obtain ⟨used, alike⟩ := cut.cut truncated
  exact ⟨c, v, assembled, encoded, shapes, truncated, used, other, w, assembled', encoded', cut.truncated.mp truncated, alike⟩

end Codec

end CommandLang
