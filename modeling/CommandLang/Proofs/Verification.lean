import CommandLang.Proofs.Circling
import CommandLang.Proofs.Linearisation
import CommandLang.Proofs.Outcome
import CommandLang.Proofs.RoundTrip

/-! Checking vectors and reading programs from them. Leaves that come out of vectors carry what their tokens ask for,
so they can be spelled whatever the sentence is. What is wrong with vectors therefore shows when they are checked,
and a tolerant codec forgives all of it. Only linear vectors are parsed, and only their check may never end. -/

namespace CommandLang

namespace Codec

variable {c : Codec} {g : Grammar} {devices : OrderedMap String String} {v : ActionVectors} {leaves : List Leaf}
  {fault : CodecError}

theorem leaves_eq_ok_of_derivation {order : Order} (direction : c.config.direction = .derivation order) :
    c.leaves v = .ok leaves ↔
      ∃ events, c.eventsFrom v 0 v.actions = .ok events ∧ c.automaton.replay order events = .ok leaves := by
  simp only [Codec.leaves, direction, bind_eq_ok, mapError_eq_ok]

theorem leaves_eq_ok_of_linear (direction : c.config.direction = .linear) :
    c.leaves v = .ok leaves ↔
      c.leavesFrom v 0 v.actions = .ok leaves ∧ ∃ events, c.automaton.parse .bottomUp leaves = .ok events := by
  simp only [Codec.leaves, direction, bind_eq_ok, mapError_eq_ok, pure, Except.pure, Except.ok.injEq]
  constructor
  · intro read
    obtain ⟨_, read, _, parsed, same⟩ := read
    exact ⟨same ▸ read, _, same ▸ parsed⟩
  · intro read
    obtain ⟨read, _, parsed⟩ := read
    exact ⟨_, read, _, parsed, rfl⟩

theorem payloadFits_of_leaves (covers : c.Covers g devices) (read : c.leaves v = .ok leaves) :
    ∀ leaf ∈ leaves, c.automaton.payloadFits leaf = true := by
  cases direction : c.config.direction with
  | derivation order =>
    obtain ⟨events, _, replayed⟩ := (leaves_eq_ok_of_derivation direction).mp read
    obtain ⟨_, _, _, fits, _⟩ := Automaton.replay_sound replayed
    exact fits
  | linear =>
    obtain ⟨_, events, parsed⟩ := (leaves_eq_ok_of_linear direction).mp read
    exact ((Automaton.parse_eq_ok_iff covers.table g.number_lawful .bottomUp).mp parsed).1

/-- A leaf that carries what its token asks for is spelled in one way, wherever it stands. The configuration only
counts for the error that is not met here. -/
theorem exists_spell (covers : c.Covers g devices) (sentence : Option (List String)) {leaf : Leaf}
    (fits : c.automaton.payloadFits leaf = true) :
    ∃ text, ∀ (config : CodecConfig) (position : Nat), { c with config }.spell sentence position leaf = .ok text := by
  obtain ⟨token, payload⟩ := leaf
  obtain ⟨terminal, named, fit⟩ := (Grammar.payloadFits_iff covers.table.grammar).mp fits
  rw [covers.table.grammar] at named
  have own : ∀ config : CodecConfig, { c with config }.tokenChannel? token = c.tokenChannel? token := fun _ => rfl
  cases fit with
  | fixed =>
    have bare := covers.tokenChannel?_fixed named
    exact ⟨_, fun config position => by simp only [spell, own, bare]; rfl⟩
  | @extensible name vocabulary place declared inside =>
    obtain ⟨number, known, channel⟩ := covers.exists_values named declared
    exact ⟨[.word vocabulary[place]], fun config position => by simp [spell, own, channel, known, inside]⟩
  | @copy name first last ordered =>
    obtain ⟨declaration, declared⟩ := Grammar.copy_of_mem_terminals (Grammar.terminal?_number.mp named).1
    obtain ⟨number, known, channel⟩ := covers.exists_copies named declared
    cases sentence with
    | none => exact ⟨_, fun config position => by simp only [spell, own, channel, known]; rfl⟩
    | some words => exact ⟨_, fun config position => by simp only [spell, own, channel, known]; rfl⟩

private theorem exists_texts (covers : c.Covers g devices) (sentence : Option (List String))
    (fits : ∀ leaf ∈ leaves, c.automaton.payloadFits leaf = true) (first : Nat) :
    ∃ texts, ∀ config : CodecConfig,
      (leaves.zipIdx first).mapM (fun (leaf, position) => { c with config }.spell sentence position leaf) = .ok texts := by
  induction leaves generalizing first with
  | nil => exact ⟨[], fun _ => rfl⟩
  | cons leaf rest ih =>
    obtain ⟨here, later⟩ := List.forall_mem_cons.mp fits
    obtain ⟨text, spelled⟩ := exists_spell covers sentence here
    obtain ⟨texts, others⟩ := ih later (first + 1)
    refine ⟨text :: texts, fun config => ?_⟩
    rw [List.zipIdx_cons, List.mapM_cons]
    exact bind_eq_ok.mpr ⟨text, spelled config first, bind_eq_ok.mpr ⟨texts, others config, rfl⟩⟩

/-- Leaves that carry what their tokens ask for make one program, whatever vectors and configuration they were read with. -/
theorem exists_program (covers : c.Covers g devices) (sentence : Option (List String))
    (fits : ∀ leaf ∈ leaves, c.automaton.payloadFits leaf = true) :
    ∃ program, ∀ (config : CodecConfig) (v : ActionVectors), { c with config }.leaves v = .ok leaves →
      { c with config }.decodeStrictly sentence v = .ok program := by
  obtain ⟨texts, spelled⟩ := exists_texts covers sentence fits 0
  refine ⟨c.vocabulary.dropDevices texts.flatten, fun config v read => ?_⟩
  exact bind_eq_ok.mpr ⟨leaves, read, bind_eq_ok.mpr ⟨texts, spelled config, rfl⟩⟩

/-- A fault that is found before anything is parsed or replayed, and where it is found. -/
private def Misplaced (fault : CodecError) : Prop :=
  ∃ position action, fault = .invalidAction position action ∨ fault = .malformedPayload position action

private theorem misplaced_of_carried {position : Nat} {action : UInt32} {channel : Channel}
    (failed : c.carried v position action channel = .error fault) : Misplaced fault := by
  refine ⟨position, action, Or.inr ?_⟩
  cases channel with
  | copy number =>
    rw [carried] at failed
    split at failed
    · split at failed
      · cases failed
      · exact (Except.error.inj failed).symm
    · exact (Except.error.inj failed).symm
  | value number =>
    rw [carried] at failed
    split at failed
    · cases failed
    · exact (Except.error.inj failed).symm

private theorem misplaced_of_eventsFrom {position : Nat} {actions : List UInt32}
    (failed : c.eventsFrom v position actions = .error fault) : Misplaced fault := by
  induction actions generalizing position with
  | nil => cases failed
  | cons action rest ih =>
    have later : ∀ {event : Event}, (do return event :: (← c.eventsFrom v (position + 1) rest)) = .error fault →
        Misplaced fault := by
      intro event failed
      rcases bind_eq_error.mp failed with behind | ⟨_, _, impossible⟩
      · exact ih behind
      · cases impossible
    rw [eventsFrom] at failed
    split at failed
    · cases failed
    · cases failed
    · exact ⟨position, action, Or.inl (Except.error.inj failed).symm⟩
    · exact ⟨position, action, Or.inl (Except.error.inj failed).symm⟩
    · exact later failed
    · exact later failed
    · rcases bind_eq_error.mp failed with here | ⟨_, _, behind⟩
      · exact misplaced_of_carried here
      · exact later behind
    · rcases bind_eq_error.mp failed with here | ⟨_, _, behind⟩
      · exact misplaced_of_carried here
      · exact later behind

private theorem misplaced_of_leavesFrom {position : Nat} {actions : List UInt32}
    (failed : c.leavesFrom v position actions = .error fault) : Misplaced fault := by
  induction actions generalizing position with
  | nil => cases failed
  | cons action rest ih =>
    have later : ∀ {leaf : Leaf}, (do return leaf :: (← c.leavesFrom v (position + 1) rest)) = .error fault →
        Misplaced fault := by
      intro leaf failed
      rcases bind_eq_error.mp failed with behind | ⟨_, _, impossible⟩
      · exact ih behind
      · cases impossible
    rw [leavesFrom] at failed
    split at failed
    · cases failed
    · cases failed
    · split at failed
      · rcases bind_eq_error.mp failed with here | ⟨_, _, behind⟩
        · exact misplaced_of_carried here
        · exact later behind
      · exact later failed
    · exact ⟨position, action, Or.inl (Except.error.inj failed).symm⟩

private theorem leaves_fault_cases (failed : c.leaves v = .error fault) :
    Misplaced fault ∨ (∃ error, fault = .replay error) ∨ c.config.direction = .linear ∧ ∃ leaves error,
      c.leavesFrom v 0 v.actions = .ok leaves ∧ c.automaton.parse .bottomUp leaves = .error error ∧ fault = .parse error := by
  rw [Codec.leaves] at failed
  split at failed
  · rcases bind_eq_error.mp failed with unread | ⟨events, _, unreplayed⟩
    · exact Or.inl (misplaced_of_eventsFrom unread)
    · obtain ⟨error, _, rfl⟩ := mapError_eq_error.mp unreplayed
      exact Or.inr (Or.inl ⟨error, rfl⟩)
  next linear =>
    rcases bind_eq_error.mp failed with unread | ⟨leaves, read, behind⟩
    · exact Or.inl (misplaced_of_leavesFrom unread)
    · rcases bind_eq_error.mp behind with unparsed | ⟨_, _, impossible⟩
      · obtain ⟨error, found, rfl⟩ := mapError_eq_error.mp unparsed
        exact Or.inr (Or.inr ⟨linear, leaves, error, read, found, rfl⟩)
      · cases impossible

theorem isStructural_of_leaves (failed : c.leaves v = .error fault) : fault.isStructural = true := by
  rcases leaves_fault_cases failed with ⟨_, _, rfl | rfl⟩ | ⟨_, rfl⟩ | ⟨_, _, _, _, _, rfl⟩
  all_goals rfl

/-- Checking vectors comes to reductions that never end. Only linear vectors are parsed to be checked. -/
def Circles (c : Codec) (v : ActionVectors) : Prop :=
  c.config.direction = .linear ∧ ∃ leaves, c.leavesFrom v 0 v.actions = .ok leaves ∧
    (∀ leaf ∈ leaves, c.automaton.payloadFits leaf = true) ∧ c.automaton.NeverEnds leaves

/-- The check of vectors is given up if and only if it comes to reductions that never end. -/
theorem verify_endless_iff (covers : c.Covers g devices) :
    (∃ position token, c.verify v = .error (.parse (.endless position token))) ↔ c.Circles v := by
  constructor
  · intro given
    obtain ⟨position, token, given⟩ := given
    rcases leaves_fault_cases (map_eq_error.mp given) with ⟨_, _, other | other⟩ | ⟨_, other⟩ | parsed
    · cases other
    · cases other
    · cases other
    · obtain ⟨linear, leaves, error, read, unparsed, same⟩ := parsed
      obtain rfl := CodecError.parse.inj same
      exact ⟨linear, leaves, read, (Automaton.parse_endless_iff covers.table g.number_lawful).mp ⟨_, _, unparsed⟩⟩
  · intro circles
    obtain ⟨linear, leaves, read, endless⟩ := circles
    obtain ⟨position, token, unparsed⟩ := (Automaton.parse_endless_iff covers.table g.number_lawful).mpr endless
    refine ⟨position, token, map_eq_error.mpr ?_⟩
    simp only [Codec.leaves, linear]
    exact bind_eq_error.mpr (Or.inr ⟨leaves, read, bind_eq_error.mpr (Or.inl (mapError_eq_error.mpr ⟨_, unparsed, rfl⟩))⟩)

/-- If every nonterminal derives something, checking vectors comes to an end. -/
theorem not_circles (covers : c.Covers g devices) (productive : g.Productive) : ¬ c.Circles v := by
  intro circles
  obtain ⟨_, _, _, _, forever⟩ := circles
  exact Automaton.not_neverEnds covers.table g.number_lawful (Grammar.number_productive productive) forever

theorem leaves_of_direction {config : CodecConfig} (same : config.direction = c.config.direction) (v : ActionVectors) :
    { c with config }.leaves v = c.leaves v := by
  have linear : { c with config }.isLinear = c.isLinear := by simp [isLinear, same]
  have count : { c with config }.actionCount = c.actionCount := by
    rw [actionCount, actionCount, linear]
    rfl
  have kinds : ∀ action, { c with config }.kind action = c.kind action := by
    intro action
    rw [kind, kind, linear, count]
    rfl
  have held : ∀ position action channel,
      { c with config }.carried v position action channel = c.carried v position action channel := fun _ _ _ => rfl
  have channels : ∀ token, { c with config }.tokenChannel? token = c.tokenChannel? token := fun _ => rfl
  have events : ∀ position actions, { c with config }.eventsFrom v position actions = c.eventsFrom v position actions := by
    intro position actions
    induction actions generalizing position with
    | nil => rfl
    | cons action rest ih => simp only [eventsFrom, kinds, held, ih]
  have leaves : ∀ position actions, { c with config }.leavesFrom v position actions = c.leavesFrom v position actions := by
    intro position actions
    induction actions generalizing position with
    | nil => rfl
    | cons action rest ih => simp only [leavesFrom, kinds, held, channels, ih]
  simp only [Codec.leaves, events, leaves, same]

/-- What lies between two positions of a sentence is cut out between bounds that are in order and inside the sentence,
whatever the positions are. -/
theorem exists_bounds_of_slice (words : List String) (first last : Nat) :
    ∃ low high, low ≤ high ∧ high ≤ words.length ∧ low = min first words.length ∧
      high = max (min (last + 1) words.length) low ∧ slice words first last = (words.take high).drop low := by
  refine ⟨min first words.length, max (min (last + 1) words.length) (min first words.length), by omega, by omega, rfl, rfl, ?_⟩
  apply List.ext_getElem?
  intro i
  simp only [slice, List.getElem?_drop, List.getElem?_take]
  by_cases inside : first + i < words.length
  · have low : min first words.length = first := by omega
    have same : first + i < last + 1 ↔ first + i < max (min (last + 1) words.length) first := by omega
    simp only [low, same]
  · have behind : words[first + i]? = none := List.getElem?_eq_none (by omega)
    by_cases below : first < words.length
    · have low : min first words.length = first := by omega
      simp only [low, behind, ite_self]
    · have outside : words[min first words.length + i]? = none := List.getElem?_eq_none (by omega)
      simp only [behind, outside, ite_self]

/-- If the check of vectors comes to an end, it decides what becomes of them. If they pass, a strict and a tolerant codec
read one program, whatever the sentence and the bounds of spans are; if not, the strict codec fails with the fault that
the check names and the tolerant codec reads the empty program. -/
theorem decode_agrees_with_verify {language : Language} {config : CodecConfig} {strict tolerant : Codec}
    (firm : ofLanguage language { config with ignoreErrors := false } = .ok strict)
    (lenient : ofLanguage language { config with ignoreErrors := true } = .ok tolerant)
    (v : ActionVectors) (ends : ¬ strict.Circles v) (sentence : Option (List String)) :
    tolerant.verify v = strict.verify v ∧
    (strict.verify v = .ok () → ∃ program,
      strict.decode sentence v = .ok program ∧ tolerant.decode sentence v = .ok program) ∧
    (∀ fault, strict.verify v = .error fault → (∀ position token, fault ≠ .parse (.endless position token)) ∧
      strict.decode sentence v = .error fault ∧ tolerant.decode sentence v = .ok []) ∧
    ∀ words first last, ∃ low high, low ≤ high ∧ high ≤ words.length ∧ low = min first words.length ∧
      high = max (min (last + 1) words.length) low ∧ slice words first last = (words.take high).drop low := by
  obtain ⟨g, covers, stern, _⟩ := covers_of_ofLanguage firm
  have same := eq_of_ofLanguage firm lenient rfl
  have alike : tolerant.leaves v = strict.leaves v := by
    rw [same]
    apply leaves_of_direction
    rw [stern]
  refine ⟨by rw [verify, verify, alike], ?_, ?_, exists_bounds_of_slice⟩
  · intro sound
    obtain ⟨leaves, read, _⟩ := map_eq_ok.mp sound
    obtain ⟨program, spelled⟩ := exists_program covers sentence (payloadFits_of_leaves covers read)
    have strictly : strict.decodeStrictly sentence v = .ok program := spelled strict.config v read
    have tolerantly : tolerant.decodeStrictly sentence v = .ok program := by
      rw [same] at alike ⊢
      exact spelled _ v (alike.trans read)
    exact ⟨program, by rw [decode, strictly], by rw [decode, tolerantly]⟩
  · intro fault failed
    have unread := map_eq_error.mp failed
    have strictly : strict.decodeStrictly sentence v = .error fault := bind_eq_error.mpr (Or.inl unread)
    have tolerantly : tolerant.decodeStrictly sentence v = .error fault :=
      bind_eq_error.mpr (Or.inl (alike.trans unread))
    have forgiving : tolerant.config.ignoreErrors = true := by rw [same]
    have severe : strict.config.ignoreErrors = false := by rw [stern]
    refine ⟨?_, ?_, ?_⟩
    · intro position token endless
      exact ends ((verify_endless_iff covers).mp ⟨position, token, endless ▸ failed⟩)
    · simp only [decode, strictly, severe, Bool.false_and, Bool.false_eq_true, if_false]
    · simp only [decode, tolerantly, forgiving, isStructural_of_leaves unread, Bool.true_and, if_true]

def linearConfig : CodecConfig := ⟨false, none, 60, .linear, false⟩

/-- A span that is sent along although the sentence ends before it, in the linear direction. -/
def strayTokens : ActionVectors where
  actions := [3, 6, 1]
  values := ∅
  spans := .ofList [("quote", ⟨[0, 5, 0], [0, 4294967295, 0]⟩)]
  length := 3
  truncated := false

theorem decode_agrees_with_verify_stray : ∃ strict tolerant,
    ofLanguage errandLanguage { linearConfig with ignoreErrors := false } = .ok strict ∧
    ofLanguage errandLanguage { linearConfig with ignoreErrors := true } = .ok tolerant ∧
    (¬ strict.Circles strayTokens ∧ strict.verify strayTokens = .ok () ∧
      ∃ program, strict.decode (some ["hello"]) strayTokens = .ok program ∧
        tolerant.decode (some ["hello"]) strayTokens = .ok program) ∧
    ∃ fault, strict.verify .empty = .error fault ∧ strict.decode (some ["hello"]) .empty = .error fault ∧
      tolerant.decode (some ["hello"]) .empty = .ok [] := by
  have checked : (ofLanguage errandLanguage { linearConfig with ignoreErrors := false }).toOption.map
      (fun strict => ((strict.verify strayTokens).toOption, (strict.verify .empty).toOption)) = some (some (), none) := by
    decide +kernel
  have built : (ofLanguage errandLanguage { linearConfig with ignoreErrors := true }).toOption.isSome = true := by
    decide +kernel
  obtain ⟨strict, firm, checked⟩ := Option.map_eq_some_iff.mp checked
  obtain ⟨tolerant, lenient⟩ := Option.isSome_iff_exists.mp built
  have firm := Grammar.eq_ok_of_toOption firm
  have lenient := Grammar.eq_ok_of_toOption lenient
  obtain ⟨sound, unsound⟩ := Prod.mk.inj checked
  have sound := Grammar.eq_ok_of_toOption sound
  obtain ⟨g, covers, _, _, source⟩ := covers_of_ofLanguage firm
  obtain rfl : Grammar.errand = g := Except.ok.inj source
  have ends : ∀ v, ¬ strict.Circles v := fun v => not_circles covers Grammar.errand_productive
  obtain ⟨_, passed, _, _⟩ := decode_agrees_with_verify firm lenient strayTokens (ends _) (some ["hello"])
  obtain ⟨_, _, failed, _⟩ := decode_agrees_with_verify firm lenient .empty (ends _) (some ["hello"])
  refine ⟨strict, tolerant, firm, lenient, ⟨ends _, sound, passed sound⟩, ?_⟩
  cases verified : strict.verify .empty with
  | error fault => exact ⟨fault, rfl, (failed fault verified).2⟩
  | ok => simp [verified, Except.toOption] at unsound

/-- The words `y t` in the linear direction. -/
def circlingVectors : ActionVectors where
  actions := [4, 3, 1]
  values := ∅
  spans := ∅
  length := 3
  truncated := false

/-- No program has these words, but a tolerant codec that checks them does not come to an end. -/
theorem tolerant_circles : ∃ tolerant,
    ofLanguage ⟨Grammar.circling, ∅, false⟩ { linearConfig with ignoreErrors := true } = .ok tolerant ∧
      tolerant.Circles circlingVectors := by
  have checked : (ofLanguage ⟨Grammar.circling, ∅, false⟩ { linearConfig with ignoreErrors := true }).toOption.map (fun tolerant =>
      (tolerant.config.direction, (tolerant.leavesFrom circlingVectors 0 circlingVectors.actions).toOption)) =
      some (.linear, some [⟨4, .none⟩, ⟨3, .none⟩]) := by decide +kernel
  obtain ⟨tolerant, assembled, checked⟩ := Option.map_eq_some_iff.mp checked
  obtain ⟨linear, read⟩ := Prod.mk.inj checked
  have assembled := Grammar.eq_ok_of_toOption assembled
  obtain ⟨_, g, a, source, built, rfl⟩ := ofLanguage_eq_ok assembled
  obtain rfl : Grammar.circling = g := Except.ok.inj source
  exact ⟨_, assembled, linear, _, Grammar.eq_ok_of_toOption read, (Grammar.circling_run built).1, Grammar.circling_neverEnds built⟩

end Codec

end CommandLang
