import CommandLang.Automaton.Build
import CommandLang.Proofs.Exploration
import Mathlib.Data.Set.Function

/-! The table of an automaton. If there is one, its states are the canonical sets, one state for each, and on
every token a state does the one thing that its set asks for. If there is none, the error names a set
that asks for two things on one token, or the first set that asks for nothing. -/

namespace CommandLang

namespace Describes

variable {g : Numbered} {states : StateList} {items : Set Item} {row : Row} {token rule : Nat}

theorem asks_shift_iff (described : Describes g states items row) :
    g.augment.Asks items token .shift ↔ ∃ next, row.shift? token = some next := by
  constructor
  · intro asks
    cases asks with
    | shift member next passed => exact described.total (.terminal token) ⟨by simpa using passed, _, member, next⟩
  · rintro ⟨next, found⟩
    obtain ⟨⟨passed, item, member, expected⟩, _⟩ := described.leads _ _ found
    exact .shift member expected (by simpa using passed)

theorem asks_moveOf_iff (described : Describes g states items row) :
    g.augment.Asks items token (g.moveOf rule) ↔ row.reduce? token = some rule :=
  (described.asked rule token).symm.trans (reducedOn_eq_some_iff described.apart).symm

theorem asks_of_shiftReduce? (described : Describes g states items row)
    (found : row.shiftReduce? = some (token, rule)) :
    g.augment.Asks items token .shift ∧ g.augment.Asks items token (g.moveOf rule) := by
  obtain ⟨shifts, reduces⟩ := Row.exists_of_shiftReduce? found
  exact ⟨described.asks_shift_iff.mpr shifts, (described.asked rule token).mp reduces⟩

theorem not_clashing (described : Describes g states items row) (lawful : g.Lawful)
    (clean : row.shiftReduce? = none) : ¬ g.augment.Clashing items := by
  have shiftless : ∀ {token rule}, g.augment.Asks items token (g.moveOf rule) →
      ¬ g.augment.Asks items token .shift := by
    intro token rule reduces shifts
    obtain ⟨reduction, member, _, inside⟩ := (described.asked rule token).mpr reduces
    obtain ⟨next, found⟩ := described.asks_shift_iff.mp shifts
    rw [Row.shift?_eq_none_of_shiftReduce?_eq_none clean member inside] at found
    cases found
  rintro ⟨token, first, second, one, other, apart⟩
  rcases lawful.asks_cases one with rfl | ⟨rule, rfl⟩ <;>
    rcases lawful.asks_cases other with rfl | ⟨rule', rfl⟩
  · exact apart rfl
  · exact shiftless other one
  · exact shiftless one other
  · have same := Option.some.inj ((described.asks_moveOf_iff.mp one).symm.trans (described.asks_moveOf_iff.mp other))
    exact apart (congrArg g.moveOf same)

/-- Where two moves never meet, nothing is shifted beside another move. -/
theorem shift?_eq_none (described : Describes g states items row) (clean : ¬ g.augment.Clashing items) {move : Move}
    (asks : g.augment.Asks items token move) (apart : move ≠ .shift) : row.shift? token = none := by
  by_contra some
  have shifts := described.asks_shift_iff.mpr (Option.ne_none_iff_exists'.mp some)
  exact clean ⟨token, _, _, asks, shifts, apart⟩

theorem hasAction_iff (described : Describes g states items row) (lawful : g.Lawful) :
    row.hasAction = true ↔ ∃ token move, g.augment.Asks items token move := by
  rw [Row.hasAction_iff]
  constructor
  · rintro (⟨token, shifts⟩ | ⟨reduction, member, token, inside⟩)
    · exact ⟨token, .shift, described.asks_shift_iff.mpr shifts⟩
    · exact ⟨token, _, (described.asked reduction.rule token).mp ⟨reduction, member, rfl, inside⟩⟩
  · rintro ⟨token, move, asks⟩
    rcases lawful.asks_cases asks with rfl | ⟨rule, rfl⟩
    · exact Or.inl ⟨token, described.asks_shift_iff.mp asks⟩
    · obtain ⟨reduction, member, _, inside⟩ := (described.asked rule token).mpr asks
      exact Or.inr ⟨reduction, member, token, inside⟩

end Describes

def Automaton.items (a : Automaton) (state : Nat) : Set Item :=
  { item | ∃ row, a.rows[state]? = some row ∧ item ∈ row.items }

/-- An automaton whose states are the canonical sets of a grammar and whose actions are what they ask for. -/
structure Automaton.Tabulates (a : Automaton) (g : Numbered) : Prop where
  grammar : a.grammar = g
  states : Set.BijOn a.items { state | state < a.stateCount } { items | g.augment.Canonical items }
  initial : a.items 0 = g.augment.closure { g.augment.startItem }
  shift : ∀ {state token next}, state < a.stateCount → (a.action state token = .shift next ↔
    next < a.stateCount ∧ g.augment.Asks (a.items state) token .shift ∧
      a.items next = g.augment.goto (a.items state) (.terminal token))
  reduce : ∀ {state token rule}, state < a.stateCount →
    (a.action state token = .reduce rule ↔ g.augment.Asks (a.items state) token (.reduce rule))
  accept : ∀ {state token}, state < a.stateCount →
    (a.action state token = .accept ↔ g.augment.Asks (a.items state) token .accept)
  error : ∀ {state token}, state < a.stateCount →
    (a.action state token = .error ↔ ∀ move, ¬ g.augment.Asks (a.items state) token move)
  goto : ∀ {state nonterminal next}, state < a.stateCount → (a.goto state nonterminal = some next ↔
    next < a.stateCount ∧ g.augment.Expects (a.items state) (.nonterminal nonterminal) ∧
      a.items next = g.augment.goto (a.items state) (.nonterminal nonterminal))

namespace Describes

variable {g : Numbered} {states : StateList} {items : Set Item} {row : Row} {a : Automaton} {state token : Nat}

theorem action_eq_shift_iff (known : a.rows[state]? = some row) {next : Nat} :
    a.action state token = .shift next ↔ row.shift? token = some next := by
  simp only [Automaton.action, known]
  split
  next found => simp [found]
  next none =>
    rw [none]
    split
    · split <;> simp
    · simp

theorem action_eq_reduce_iff (described : Describes g states items row) (lawful : g.Lawful)
    (clean : ¬ g.augment.Clashing items) (grammar : a.grammar = g) (known : a.rows[state]? = some row) {rule : Nat} :
    a.action state token = .reduce rule ↔ g.augment.Asks items token (.reduce rule) := by
  constructor
  · intro acts
    simp only [Automaton.action, known] at acts
    split at acts
    · cases acts
    · split at acts
      next reduced found =>
        split at acts
        · cases acts
        next apart =>
          obtain rfl := Action.reduce.inj acts
          have asks := described.asks_moveOf_iff.mpr found
          rw [Numbered.moveOf, if_neg (grammar ▸ apart)] at asks
          exact asks
      · cases acts
  · intro asks
    have shiftless := described.shift?_eq_none clean asks (by simp)
    obtain ⟨other, same⟩ := (lawful.asks_cases asks).resolve_left (by simp)
    rw [same] at asks
    have found := described.asks_moveOf_iff.mp asks
    rw [Numbered.moveOf] at same
    split at same
    · cases same
    next apart =>
      obtain rfl := Move.reduce.inj same
      simp [Automaton.action, known, shiftless, found, grammar, apart]

theorem action_eq_accept_iff (described : Describes g states items row)
    (clean : ¬ g.augment.Clashing items) (grammar : a.grammar = g) (known : a.rows[state]? = some row) :
    a.action state token = .accept ↔ g.augment.Asks items token .accept := by
  have last : Move.accept = g.moveOf g.rules.size := by simp [Numbered.moveOf]
  constructor
  · intro acts
    simp only [Automaton.action, known] at acts
    split at acts
    · cases acts
    · split at acts
      next reduced found =>
        split at acts
        next same =>
          rw [grammar] at same
          rw [last, ← same]
          exact described.asks_moveOf_iff.mpr found
        · cases acts
      · cases acts
  · intro asks
    have shiftless := described.shift?_eq_none clean asks (by simp)
    rw [last] at asks
    have found := described.asks_moveOf_iff.mp asks
    simp [Automaton.action, known, shiftless, found, grammar]

theorem action_eq_error_iff (described : Describes g states items row) (lawful : g.Lawful)
    (clean : ¬ g.augment.Clashing items) (grammar : a.grammar = g) (known : a.rows[state]? = some row) :
    a.action state token = .error ↔ ∀ move, ¬ g.augment.Asks items token move := by
  have shifts : ∀ {next}, a.action state token = .shift next ↔ row.shift? token = some next :=
    action_eq_shift_iff known
  have reduces : ∀ {rule}, a.action state token = .reduce rule ↔ g.augment.Asks items token (.reduce rule) :=
    described.action_eq_reduce_iff lawful clean grammar known
  have accepts := @action_eq_accept_iff g states items row a state token described clean grammar known
  constructor
  · intro acts move asks
    cases move with
    | shift =>
      obtain ⟨next, found⟩ := described.asks_shift_iff.mp asks
      rw [shifts.mpr found] at acts
      cases acts
    | reduce rule =>
      rw [reduces.mpr asks] at acts
      cases acts
    | accept =>
      rw [accepts.mpr asks] at acts
      cases acts
  · intro idle
    cases acts : a.action state token with
    | error => rfl
    | shift next => exact absurd (described.asks_shift_iff.mpr ⟨next, shifts.mp acts⟩) (idle _)
    | reduce rule => exact absurd (reduces.mp acts) (idle _)
    | accept => exact absurd (accepts.mp acts) (idle _)

end Describes

namespace Survey.Sound

variable {g : Numbered} {s : Survey} (sound : Sound g s) (complete : s.states.size ≤ s.rows.size)

include sound

private theorem items_eq {state : Nat} {set : IdSet} (inside : state < s.rows.size)
    (found : s.states.get? state = some set) :
    Automaton.items ⟨g, s.rows⟩ state = g.augment.blueprint.itemSet set := by
  obtain ⟨other, known, described⟩ := sound.described (Array.getElem?_eq_getElem inside)
  obtain rfl := Option.some.inj (found.symm.trans known)
  ext item
  rw [← described.listed]
  constructor
  · rintro ⟨row, here, member⟩
    obtain rfl := Option.some.inj ((Array.getElem?_eq_getElem inside).symm.trans here)
    exact member
  · exact fun member => ⟨_, Array.getElem?_eq_getElem inside, member⟩

theorem exists_row {state : Nat} (inside : state < s.rows.size) :
    ∃ row set, s.rows[state]? = some row ∧ s.states.get? state = some set ∧
      Automaton.items ⟨g, s.rows⟩ state = g.augment.blueprint.itemSet set ∧
      Describes g s.states (Automaton.items ⟨g, s.rows⟩ state) row := by
  obtain ⟨set, known, described⟩ := sound.described (Array.getElem?_eq_getElem inside)
  have same := sound.items_eq inside known
  exact ⟨_, set, Array.getElem?_eq_getElem inside, known, same, same ▸ described⟩

include complete

private theorem bijOn : Set.BijOn (Automaton.items ⟨g, s.rows⟩) { state | state < s.rows.size }
    { items | g.augment.Canonical items } := by
  refine ⟨?_, ?_, ?_⟩
  · intro state inside
    obtain ⟨_, set, _, known, same, _⟩ := sound.exists_row inside
    exact same ▸ sound.canonical known
  · intro state inside other outside equal
    obtain ⟨_, set, _, known, same, _⟩ := sound.exists_row inside
    obtain ⟨_, rest, _, found, alike, _⟩ := sound.exists_row outside
    rw [same, alike, Blueprint.itemSet_inj] at equal
    exact StateList.get?_inj known (equal ▸ found)
  · intro items canonical
    obtain ⟨state, set, found, rfl⟩ := sound.number_of_canonical complete canonical
    have inside := Nat.lt_of_lt_of_le (StateList.isSome_get?.mp ⟨set, found⟩) complete
    exact ⟨state, inside, sound.items_eq inside found⟩

private theorem edge_iff {state next : Nat} {row : Row} {symbol : Symbol Nat Nat}
    (described : Describes g s.states (Automaton.items ⟨g, s.rows⟩ state) row) :
    row.edges.lookup symbol = some next ↔ next < s.rows.size ∧
      g.augment.Expects (Automaton.items ⟨g, s.rows⟩ state) symbol ∧
      Automaton.items ⟨g, s.rows⟩ next = g.augment.goto (Automaton.items ⟨g, s.rows⟩ state) symbol := by
  have leads : ∀ {next}, row.edges.lookup symbol = some next → next < s.rows.size ∧
      g.augment.Expects (Automaton.items ⟨g, s.rows⟩ state) symbol ∧
      Automaton.items ⟨g, s.rows⟩ next = g.augment.goto (Automaton.items ⟨g, s.rows⟩ state) symbol := by
    intro next found
    obtain ⟨expects, target, known, same⟩ := described.leads _ _ found
    have inside := Nat.lt_of_lt_of_le (StateList.isSome_get?.mp ⟨target, known⟩) complete
    exact ⟨inside, expects, (sound.items_eq inside known).trans same⟩
  refine ⟨leads, ?_⟩
  rintro ⟨inside, expects, same⟩
  obtain ⟨other, found⟩ := described.total symbol expects
  obtain ⟨outside, _, alike⟩ := leads found
  rw [found, (sound.bijOn complete).injOn outside inside (alike.trans same.symm)]

/-- Rows without conflicts make up the table. -/
theorem tabulates (lawful : g.Lawful) (clean : ∀ row ∈ s.rows.toList, row.shiftReduce? = none) :
    Automaton.Tabulates ⟨g, s.rows⟩ g := by
  have table : ∀ {state}, state < s.rows.size → ∃ row, s.rows[state]? = some row ∧
      Describes g s.states (Automaton.items ⟨g, s.rows⟩ state) row ∧
      ¬ g.augment.Clashing (Automaton.items ⟨g, s.rows⟩ state) := by
    intro state inside
    obtain ⟨row, set, known, _, _, described⟩ := sound.exists_row inside
    have member : row ∈ s.rows.toList := Array.mem_toList_iff.mpr (Array.mem_of_getElem? known)
    exact ⟨row, known, described, described.not_clashing lawful (clean row member)⟩
  have bijective := sound.bijOn complete
  refine ⟨rfl, bijective, ?_, ?_, ?_, ?_, ?_, ?_⟩
  · obtain ⟨set, found, same⟩ := sound.first
    have inside := Nat.lt_of_lt_of_le (StateList.isSome_get?.mp ⟨set, found⟩) complete
    exact (sound.items_eq inside found).trans same
  · intro state token next inside
    obtain ⟨row, known, described, _⟩ := table inside
    rw [Describes.action_eq_shift_iff known, Row.shift?, sound.edge_iff complete described]
    have expects : g.augment.Expects (Automaton.items ⟨g, s.rows⟩ state) (.terminal token) ↔
        g.augment.Asks (Automaton.items ⟨g, s.rows⟩ state) token .shift := by
      rw [described.asks_shift_iff]
      constructor
      · exact described.total _
      · rintro ⟨next, found⟩
        exact (described.leads _ _ found).1
    rw [expects]
    exact Iff.rfl
  · intro state token rule inside
    obtain ⟨row, known, described, clashless⟩ := table inside
    exact described.action_eq_reduce_iff lawful clashless rfl known
  · intro state token inside
    obtain ⟨row, known, described, clashless⟩ := table inside
    exact described.action_eq_accept_iff clashless rfl known
  · intro state token inside
    obtain ⟨row, known, described, clashless⟩ := table inside
    exact described.action_eq_error_iff lawful clashless rfl known
  · intro state nonterminal next inside
    obtain ⟨row, known, described, _⟩ := table inside
    rw [Automaton.goto]
    simp only [known, Option.bind_some, Row.goto?]
    exact sound.edge_iff complete described

end Survey.Sound

end CommandLang
