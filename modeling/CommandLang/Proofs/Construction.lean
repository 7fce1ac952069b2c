import CommandLang.Proofs.Table

/-! Which grammars have an automaton. There is one if no canonical set asks for two things on one token and every
set asks for something. Otherwise the error names a set that was found, and what it says of the set is so. -/

namespace CommandLang

def Lists (listing : List Item) (items : Set Item) : Prop :=
  listing.Nodup ∧ ∀ item, item ∈ listing ↔ item ∈ items

namespace Numbered

variable (g : Numbered)

/-- No canonical set asks for two things on one token. -/
def Clean : Prop := ∀ items, g.augment.Canonical items → ¬ g.augment.Clashing items

/-- A state asks for nothing, and every state with a lower number asks for something. -/
def FirstIdle (state : Nat) : Prop :=
  (∃ items, g.StateAt state items ∧ ∀ token move, ¬ g.augment.Asks items token move) ∧
  ∀ earlier < state, ∃ items token move, g.StateAt earlier items ∧ g.augment.Asks items token move

end Numbered

theorem Numbered.FirstIdle.unique {g : Numbered} (lawful : g.Lawful) {state other : Nat} (first : g.FirstIdle state)
    (second : g.FirstIdle other) : state = other := by
  have later : ∀ {state other}, g.FirstIdle state → g.FirstIdle other → ¬ other < state := by
    rintro state other ⟨_, busy⟩ ⟨⟨items, place, idle⟩, _⟩ less
    obtain ⟨more, token, move, known, asks⟩ := busy other less
    exact idle token move (known.items_unique lawful place ▸ asks)
  exact Nat.le_antisymm (Nat.le_of_not_lt (later first second)) (Nat.le_of_not_lt (later second first))

/-- What an error says is so. -/
def BuildError.Genuine (g : Numbered) : BuildError → Prop
  | .shiftReduce state items token rule => ∃ set listing shifted reduced,
      g.StateAt state set ∧ Lists listing set ∧ items = listing.map g.augment.itemText ∧
      token = g.augment.tokenName shifted ∧ rule = g.augment.ruleText reduced ∧
      g.augment.Asks set shifted .shift ∧ g.augment.Asks set shifted (g.moveOf reduced)
  | .reduceReduce state items token first second => ∃ set listing lookahead one other,
      g.StateAt state set ∧ Lists listing set ∧ items = listing.map g.augment.itemText ∧
      token = g.augment.tokenName lookahead ∧ first = g.augment.ruleText one ∧ second = g.augment.ruleText other ∧
      g.augment.Asks set lookahead (g.moveOf one) ∧ g.augment.Asks set lookahead (g.moveOf other) ∧ one ≠ other
  | .deadState state => g.Clean ∧ g.FirstIdle state
  | .nameTaken => ∃ a rhs, g.HasRule a rhs ∧ g.names[a]? = some Numbered.acceptName

namespace BuildError

variable {g : Numbered}

def IsConflict : BuildError → Prop
  | .shiftReduce .. | .reduceReduce .. => True
  | .deadState _ | .nameTaken => False

theorem Genuine.clashing (lawful : g.Lawful) {error : BuildError} (genuine : error.Genuine g)
    (conflict : error.IsConflict) : ∃ items, g.augment.Canonical items ∧ g.augment.Clashing items := by
  cases error with
  | shiftReduce =>
    obtain ⟨set, _, token, reduced, state, _, _, _, _, shifts, reduces⟩ := genuine
    have apart : Move.shift ≠ g.moveOf reduced := by
      unfold Numbered.moveOf
      split <;> simp
    exact ⟨set, state.canonical lawful, token, _, _, shifts, reduces, apart⟩
  | reduceReduce =>
    obtain ⟨set, _, token, one, other, state, _, _, _, _, _, first, second, apart⟩ := genuine
    exact ⟨set, state.canonical lawful, token, _, _, first, second, fun same => apart (Numbered.moveOf_inj.mp same)⟩
  | deadState | nameTaken => exact conflict.elim

end BuildError

namespace Numbered

variable {g : Numbered}

private theorem obstacle?_eq_some {rows : List Row} {error : BuildError} (found : g.obstacle? rows = some error) :
    (∃ state row token rule, rows[state]? = some row ∧ row.shiftReduce? = some (token, rule) ∧
      error = .shiftReduce state (row.items.map g.itemText) (g.tokenName token) (g.ruleText rule)) ∨
    (∀ row ∈ rows, row.shiftReduce? = none) ∧ ∃ state row, rows[state]? = some row ∧ row.hasAction = false ∧
      error = .deadState state ∧ ∀ earlier < state, ∀ row, rows[earlier]? = some row → row.hasAction = true := by
  rcases Option.or_eq_some_iff.mp found with conflict | ⟨clean, dead⟩
  · obtain ⟨⟨row, state⟩, member, conflict⟩ := List.exists_of_findSome?_eq_some conflict
    obtain ⟨⟨token, rule⟩, both, rfl⟩ := Option.map_eq_some_iff.mp conflict
    exact Or.inl ⟨state, row, token, rule, List.mem_zipIdx_iff_getElem?.mp member, both, rfl⟩
  · refine Or.inr ⟨?_, ?_⟩
    · intro row member
      obtain ⟨state, known⟩ := List.mem_iff_getElem?.mp member
      have here := List.findSome?_eq_none_iff.mp clean (row, state) (List.mem_zipIdx_iff_getElem?.mpr known)
      exact Option.map_eq_none_iff.mp here
    · obtain ⟨front, ⟨row, state⟩, back, whole, idle, before⟩ := List.findSome?_eq_some_iff.mp dead
      have place : ∀ index : Nat, (front ++ (row, state) :: back)[index]? = rows[index]?.map (·, index) := by
        intro index
        rw [← whole, List.getElem?_zipIdx, Nat.zero_add]
      have here := place front.length
      rw [List.getElem?_append_right (Nat.le_refl _), Nat.sub_self, List.getElem?_cons_zero] at here
      obtain ⟨other, known, same⟩ := Option.map_eq_some_iff.mp here.symm
      obtain ⟨rfl, rfl⟩ := Prod.mk.inj same
      simp only [Option.ite_none_left_eq_some, Bool.not_eq_true] at idle
      refine ⟨front.length, other, known, idle.1, (Option.some.inj idle.2).symm, ?_⟩
      intro earlier less row found
      have there := place earlier
      rw [List.getElem?_append_left less, found] at there
      have passed := before _ (List.mem_of_getElem? there)
      simpa using passed

private theorem obstacle?_eq_none {rows : List Row} (clean : g.obstacle? rows = none) {row : Row} (member : row ∈ rows) :
    row.shiftReduce? = none ∧ row.hasAction = true := by
  obtain ⟨conflictless, alive⟩ := Option.or_eq_none_iff.mp clean
  obtain ⟨state, known⟩ := List.mem_iff_getElem?.mp member
  have inside : (row, state) ∈ rows.zipIdx := List.mem_zipIdx_iff_getElem?.mpr known
  refine ⟨Option.map_eq_none_iff.mp (List.findSome?_eq_none_iff.mp conflictless (row, state) inside), ?_⟩
  simpa using List.findSome?_eq_none_iff.mp alive (row, state) inside

end Numbered

namespace Numbered.Lawful

variable {g : Numbered} (lawful : g.Lawful) {s : Survey}

include lawful

private theorem survey_eq_error {clash : Clash} (ended : g.augment.blueprint.survey = .error clash) :
    (g.augment.clashError clash).Genuine g := by
  obtain ⟨s, state, stage, waiting, visited⟩ := Survey.explore_eq_error .refl ended
  obtain ⟨codes, same, place, items, found⟩ := Survey.visit_eq_error visited
  have distinct : codes.Nodup := same.nodup_iff.mpr state.nodup_toList
  obtain ⟨first, second, apart⟩ := lawful.clashing_of_reduceReduce? distinct found
  rw [Blueprint.itemsOf_perm same] at first second
  have listing : Lists clash.items (g.augment.blueprint.itemSet state) := by
    rw [items]
    refine ⟨distinct.map fun _ _ equal => Item.ofCode_inj.mp equal, ?_⟩
    intro item
    rw [Blueprint.itemSet, ← Blueprint.itemsOf_perm same, List.mem_map]
    exact Iff.rfl
  exact ⟨_, clash.items, clash.token, clash.first, clash.second, ⟨s, state, stage, place ▸ waiting, rfl⟩, listing,
    rfl, rfl, rfl, rfl, first, second, apart⟩

private theorem survey_eq_ok (ended : g.augment.blueprint.survey = .ok s) :
    Survey.Stage g.augment.blueprint s ∧ s.states.size ≤ s.rows.size :=
  Survey.explore_eq_ok lawful .refl (Nat.le_add_right ..) ended

end Numbered.Lawful

namespace Survey.Stage

variable {g : Numbered} (lawful : g.Lawful) {s : Survey} (stage : Stage g.augment.blueprint s)

include lawful stage

private theorem exists_items {state : Nat} {row : Row} (known : s.rows[state]? = some row) :
    ∃ items, g.StateAt state items ∧ Describes g s.states items row := by
  obtain ⟨set, found, described⟩ := (stage.sound lawful).described known
  exact ⟨_, ⟨s, set, stage, found, rfl⟩, described⟩

private theorem exists_row (complete : s.states.size ≤ s.rows.size) {items : Set Item}
    (canonical : g.augment.Canonical items) :
    ∃ state row, s.rows[state]? = some row ∧ g.StateAt state items ∧ Describes g s.states items row := by
  have sound := stage.sound lawful
  obtain ⟨state, set, found, rfl⟩ := sound.number_of_canonical complete canonical
  have inside := Nat.lt_of_lt_of_le (StateList.isSome_get?.mp ⟨set, found⟩) complete
  obtain ⟨other, known, described⟩ := sound.described (Array.getElem?_eq_getElem inside)
  obtain rfl := Option.some.inj (found.symm.trans known)
  exact ⟨state, _, Array.getElem?_eq_getElem inside, ⟨s, set, stage, found, rfl⟩, described⟩

private theorem clean (complete : s.states.size ≤ s.rows.size)
    (conflictless : ∀ row ∈ s.rows.toList, row.shiftReduce? = none) : g.Clean := by
  intro items canonical
  obtain ⟨state, row, known, _, described⟩ := stage.exists_row lawful complete canonical
  exact described.not_clashing lawful (conflictless row (Array.mem_toList_iff.mpr (Array.mem_of_getElem? known)))

private theorem genuine_of_obstacle? (complete : s.states.size ≤ s.rows.size) {error : BuildError}
    (found : g.augment.obstacle? s.rows.toList = some error) : error.Genuine g := by
  rcases Numbered.obstacle?_eq_some found with ⟨state, row, token, rule, known, both, rfl⟩ |
    ⟨conflictless, state, row, known, idle, rfl, before⟩
  · rw [Array.getElem?_toList] at known
    obtain ⟨items, place, described⟩ := stage.exists_items lawful known
    obtain ⟨shifts, reduces⟩ := described.asks_of_shiftReduce? both
    exact ⟨items, row.items, token, rule, place, ⟨described.distinct, described.listed⟩, rfl, rfl, rfl, shifts, reduces⟩
  · rw [Array.getElem?_toList] at known
    obtain ⟨items, place, described⟩ := stage.exists_items lawful known
    refine ⟨stage.clean lawful complete conflictless, ⟨items, place, ?_⟩, ?_⟩
    · intro token move asks
      have acts := (described.hasAction_iff lawful).mpr ⟨token, move, asks⟩
      rw [idle] at acts
      cases acts
    · intro earlier less
      have inside := Nat.lt_trans less (Array.getElem?_eq_some_iff.mp known).1
      have there := Array.getElem?_eq_getElem inside
      obtain ⟨items, place, described⟩ := stage.exists_items lawful there
      obtain ⟨token, move, asks⟩ := (described.hasAction_iff lawful).mp
        (before earlier less _ (by rw [Array.getElem?_toList]; exact there))
      exact ⟨items, token, move, place, asks⟩

end Survey.Stage

namespace Grammar

variable {g : Grammar} {a : Automaton}

theorem hasRules_iff_number {name : String} :
    g.hasRules name = true ↔ ∃ a rhs, g.number.HasRule a rhs ∧ g.number.names[a]? = some name := by
  rw [Draft.hasRules_iff]
  constructor
  · rintro ⟨rhs, known⟩
    exact ⟨_, _, number_hasRule.mpr ⟨name, rhs, known, rfl, rfl⟩, by simp [number, List.getElem?_idxOf known.mem_keys]⟩
  · rintro ⟨a, rhs, ruled, named⟩
    obtain ⟨other, source, known, rfl, _⟩ := number_hasRule.mp ruled
    obtain rfl : other = name := by simpa [number, List.getElem?_idxOf known.mem_keys] using named
    exact ⟨source, known⟩

theorem automaton_of_taken (taken : g.hasRules Numbered.acceptName = true) : g.automaton = .error .nameTaken := by
  simp only [automaton, lookahead?_augment, if_pos taken]

private theorem automaton_of_plain (plain : g.hasRules Numbered.acceptName = false) : g.automaton =
    match g.number.augment.blueprint.survey with
    | .error clash => .error (g.number.augment.clashError clash)
    | .ok survey =>
      match g.number.augment.obstacle? survey.rows.toList with
      | some error => .error error
      | none => .ok ⟨g.number, survey.rows⟩ := by
  simp only [automaton, lookahead?_augment, plain, Bool.false_eq_true, if_false]
  rfl

theorem plain_of_automaton_ne (other : g.automaton ≠ .error .nameTaken) : g.hasRules Numbered.acceptName = false :=
  Bool.eq_false_iff.mpr fun taken => other (automaton_of_taken taken)

theorem plain_of_automaton (built : g.automaton = .ok a) : g.hasRules Numbered.acceptName = false :=
  plain_of_automaton_ne (by simp [built])

private theorem automaton_eq_ok (built : g.automaton = .ok a) :
    ∃ s, Survey.Stage g.number.augment.blueprint s ∧ s.states.size ≤ s.rows.size ∧
      g.number.augment.obstacle? s.rows.toList = none ∧ a = ⟨g.number, s.rows⟩ := by
  rw [automaton_of_plain (plain_of_automaton built)] at built
  split at built
  · cases built
  next s ended =>
    split at built
    · cases built
    next clean =>
      obtain ⟨stage, complete⟩ := g.number_lawful.survey_eq_ok ended
      exact ⟨s, stage, complete, clean, (Except.ok.inj built).symm⟩

theorem automaton_tabulates (built : g.automaton = .ok a) : a.Tabulates g.number := by
  obtain ⟨s, stage, complete, free, rfl⟩ := automaton_eq_ok built
  exact (stage.sound g.number_lawful).tabulates complete g.number_lawful fun row member =>
    (Numbered.obstacle?_eq_none free member).1

theorem automaton_stateAt (built : g.automaton = .ok a) {state : Nat} (inside : state < a.stateCount) :
    g.number.StateAt state (a.items state) := by
  obtain ⟨s, stage, _, _, rfl⟩ := automaton_eq_ok built
  obtain ⟨_, set, _, found, same, _⟩ := (stage.sound g.number_lawful).exists_row inside
  exact ⟨s, set, stage, found, same.symm⟩

theorem automaton_clean (built : g.automaton = .ok a) : g.number.Clean := by
  obtain ⟨s, stage, complete, free, rfl⟩ := automaton_eq_ok built
  exact stage.clean g.number_lawful complete fun row member => (Numbered.obstacle?_eq_none free member).1

theorem automaton_busy (built : g.automaton = .ok a) {items : Set Item} (canonical : g.number.augment.Canonical items) :
    ∃ token move, g.number.augment.Asks items token move := by
  obtain ⟨s, stage, complete, free, rfl⟩ := automaton_eq_ok built
  obtain ⟨_, row, known, _, described⟩ := stage.exists_row g.number_lawful complete canonical
  have member : row ∈ s.rows.toList := Array.mem_toList_iff.mpr (Array.mem_of_getElem? known)
  exact (described.hasAction_iff g.number_lawful).mp (Numbered.obstacle?_eq_none free member).2

theorem automaton_genuine {error : BuildError} (failed : g.automaton = .error error) : error.Genuine g.number := by
  cases taken : g.hasRules Numbered.acceptName with
  | true =>
    obtain rfl := Except.error.inj ((automaton_of_taken taken).symm.trans failed)
    exact hasRules_iff_number.mp taken
  | false =>
    rw [automaton_of_plain taken] at failed
    split at failed
    next clash ended =>
      obtain rfl := Except.error.inj failed
      exact g.number_lawful.survey_eq_error ended
    next s ended =>
      obtain ⟨stage, complete⟩ := g.number_lawful.survey_eq_ok ended
      split at failed
      next found =>
        obtain rfl := Except.error.inj failed
        exact stage.genuine_of_obstacle? g.number_lawful complete found
      · cases failed

/-- The construction breaks off only if the name of the added start symbol is taken. -/
theorem automaton_eq_nameTaken : g.automaton = .error .nameTaken ↔ g.hasRules Numbered.acceptName = true :=
  ⟨fun failed => hasRules_iff_number.mpr (automaton_genuine failed), automaton_of_taken⟩

/-- Where a canonical set asks for two things on one token, the construction finds a conflict. -/
theorem exists_conflict (plain : g.hasRules Numbered.acceptName = false) {items : Set Item}
    (canonical : g.number.augment.Canonical items) (clashing : g.number.augment.Clashing items) :
    ∃ error, g.automaton = .error error ∧ error.IsConflict := by
  cases result : g.automaton with
  | ok a => exact absurd clashing (automaton_clean result items canonical)
  | error error =>
    refine ⟨error, rfl, ?_⟩
    cases error with
    | shiftReduce | reduceReduce => trivial
    | deadState => exact (automaton_genuine result).1 items canonical clashing
    | nameTaken => exact absurd (automaton_eq_nameTaken.mp result) (Bool.eq_false_iff.mp plain)

/-- Where no canonical set asks for two things on one token, the first one that asks for nothing is found, if there is one. -/
theorem exists_automaton_or_firstIdle (plain : g.hasRules Numbered.acceptName = false) (clean : g.number.Clean) :
    (∃ a, g.automaton = .ok a) ∨ ∃ state, g.automaton = .error (.deadState state) ∧ g.number.FirstIdle state := by
  cases result : g.automaton with
  | ok a => exact Or.inl ⟨a, rfl⟩
  | error error =>
    have genuine := automaton_genuine result
    cases error with
    | deadState state => exact Or.inr ⟨state, rfl, genuine.2⟩
    | nameTaken => exact absurd (automaton_eq_nameTaken.mp result) (Bool.eq_false_iff.mp plain)
    | _ =>
      obtain ⟨items, canonical, clashing⟩ := genuine.clashing g.number_lawful trivial
      exact absurd clashing (clean items canonical)

/-- A grammar has the automaton of its canonical sets or none. Unless the name of the added start symbol is taken, it fails
with a conflict exactly if a set asks for two things on one token, and otherwise with the first state that asks for
nothing, if there is one. -/
theorem automaton_exact (g : Grammar) :
    (∀ a, g.automaton = .ok a → a.Tabulates g.number ∧
      ∀ state < a.stateCount, g.number.StateAt state (a.items state)) ∧
    (∀ error, g.automaton = .error error → error.Genuine g.number) ∧
    ((∃ error, g.automaton = .error error ∧ error.IsConflict) ↔
      g.hasRules Numbered.acceptName = false ∧ ∃ items, g.number.augment.Canonical items ∧ g.number.augment.Clashing items) ∧
    (∀ state, g.automaton = .error (.deadState state) ↔
      g.hasRules Numbered.acceptName = false ∧ g.number.Clean ∧ g.number.FirstIdle state) ∧
    (g.automaton = .error .nameTaken ↔ g.hasRules Numbered.acceptName = true) := by
  refine ⟨?_, fun error failed => automaton_genuine failed, ⟨?_, ?_⟩, fun state => ⟨?_, ?_⟩, automaton_eq_nameTaken⟩
  · intro a built
    exact ⟨automaton_tabulates built, fun state inside => automaton_stateAt built inside⟩
  · rintro ⟨error, failed, conflict⟩
    refine ⟨plain_of_automaton_ne fun taken => ?_, (automaton_genuine failed).clashing g.number_lawful conflict⟩
    obtain rfl := Except.error.inj (failed.symm.trans taken)
    exact conflict
  · rintro ⟨plain, items, canonical, clashing⟩
    exact exists_conflict plain canonical clashing
  · exact fun failed => ⟨plain_of_automaton_ne (by simp [failed]), automaton_genuine failed⟩
  · rintro ⟨plain, clean, first⟩
    rcases exists_automaton_or_firstIdle plain clean with ⟨a, built⟩ | ⟨other, failed, first'⟩
    · obtain ⟨⟨items, place, idle⟩, _⟩ := first
      obtain ⟨token, move, asks⟩ := automaton_busy built (place.canonical g.number_lawful)
      exact absurd asks (idle token move)
    · rw [failed, first.unique g.number_lawful first']

end Grammar

end CommandLang
