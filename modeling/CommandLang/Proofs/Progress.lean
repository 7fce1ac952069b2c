import CommandLang.Proofs.Machine

/-! A machine follows every forest. In a state with an item in front of some symbols it shifts and reduces a forest
of these symbols, as long as what comes next can stand behind them, and arrives behind them with the
item advanced. -/

namespace CommandLang

def Automaton.Acts (a : Automaton) (c d : Config) : Prop := a.step c = .shifted d ∨ a.step c = .reduced d

def Numbered.Ahead (g : Numbered) (symbols : NumberedSymbols) (token : Nat) : Prop :=
  ∃ lhs front back, Derives g.HasRule [.nonterminal lhs] (front ++ symbols ++ .terminal token :: back)

def nextToken (leaves : List Leaf) : Nat := (leaves.headD ⟨Token.eos, .none⟩).token

theorem Numbered.Ahead.tail {g : Numbered} {symbol : Symbol Nat Nat} {symbols : NumberedSymbols} {token : Nat}
    (ahead : g.Ahead (symbol :: symbols) token) : g.Ahead symbols token := by
  obtain ⟨lhs, front, back, derived⟩ := ahead
  exact ⟨lhs, front ++ [symbol], back, by simpa using derived⟩

namespace Forest.Of

variable {g : Numbered} {symbols : NumberedSymbols} {forest : Forest}

theorem augment (tree : forest.Of g symbols) : forest.Of g.augment symbols := by
  induction tree with
  | nil => exact .nil
  | leaf _ ih => exact .leaf ih
  | node known _ _ below later => exact .node (Numbered.augment_getElem?.mpr (Or.inl known)) below later

/-- What comes next behind a nonterminal, be it in a forest or behind one, follows the nonterminal. -/
theorem follows (tree : forest.Of g symbols) {a : Nat} {rest : List Leaf}
    (ahead : g.Ahead (.nonterminal a :: symbols) (nextToken rest)) : g.Follows a (nextToken (forest.leaves ++ rest)) := by
  obtain ⟨lhs, front, back, derived⟩ := ahead
  have whole : Derives g.HasRule [.nonterminal lhs] (front ++ .nonterminal a ::
      (forest.leaves.map fun leaf => .terminal leaf.token) ++ .terminal (nextToken rest) :: back) := by
    refine derived.trans ?_
    exact ((tree.derives.append_left [.nonterminal a]).append_left front).append_right _
  cases read : forest.leaves with
  | nil =>
    rw [read] at whole
    exact ⟨lhs, front, back, by simpa using whole⟩
  | cons first more =>
    rw [read] at whole
    exact ⟨lhs, front, (more.map fun leaf => .terminal leaf.token) ++ .terminal (nextToken rest) :: back,
      by simpa [nextToken] using whole⟩

/-- The token in front of a forest can stand behind the children of a rule before it. -/
theorem ahead (tree : forest.Of g symbols) {lhs : Nat} {rhs : NumberedSymbols} (ruled : g.HasRule lhs rhs)
    {rest : List Leaf} (ahead : g.Ahead (.nonterminal lhs :: symbols) (nextToken rest)) :
    g.Ahead rhs (nextToken (forest.leaves ++ rest)) := by
  obtain ⟨outer, front, back, derived⟩ := tree.follows ahead
  exact ⟨outer, front, back, derived.rewrite ruled⟩

end Forest.Of

namespace Automaton.Tabulates

variable {a : Automaton} {g : Numbered}

/-- A symbol behind a dot is passed to a state in which the dot stands behind it. -/
private theorem exists_next (table : a.Tabulates g) {state : Nat} (inside : state < a.stateCount) {rule dot : Nat}
    {production : Rule} {symbol : Symbol Nat Nat} {more : NumberedSymbols} (member : ⟨rule, dot⟩ ∈ a.items state)
    (known : g.augment.rules[rule]? = some production) (expected : production.rhs.drop dot = symbol :: more)
    (passed : symbol ≠ .terminal Token.eos) :
    production.rhs.drop (dot + 1) = more ∧
      ∃ next, next < a.stateCount ∧ ⟨rule, dot + 1⟩ ∈ a.items next ∧
        g.augment.Expects (a.items state) symbol ∧ a.items next = g.augment.goto (a.items state) symbol := by
  have found : g.augment.next? ⟨rule, dot⟩ = some symbol := by
    refine Numbered.next?_eq_some.mpr ⟨production, known, ?_⟩
    rw [← List.head?_drop, expected, List.head?_cons]
  have expects : g.augment.Expects (a.items state) symbol := ⟨passed, _, member, found⟩
  obtain ⟨next, outside, leads⟩ := table.exists_goto inside expects
  refine ⟨?_, next, outside, ?_, expects, leads⟩
  · rw [List.drop_add_one_eq_tail_drop, expected, List.tail_cons]
  · rw [leads]
    exact .kernel ⟨_, member, found, rfl⟩

/-- A leaf that an item of the state expects is shifted. -/
private theorem acts_shift (table : a.Tabulates g) {state next : Nat} (inside : state < a.stateCount)
    (outside : next < a.stateCount) {leaf : Leaf} (passed : leaf.token ≠ Token.eos)
    (expects : g.augment.Expects (a.items state) (.terminal leaf.token))
    (leads : a.items next = g.augment.goto (a.items state) (.terminal leaf.token)) {below : List Nat} {rest : List Leaf}
    {position : Nat} {trace : List Event} :
    a.Acts ⟨state :: below, leaf :: rest, position, trace⟩
      ⟨next :: state :: below, rest, position + 1, .shift leaf :: trace⟩ := by
  obtain ⟨_, item, member, found⟩ := expects
  exact Or.inl (Automaton.step_eq_shifted.mpr
    ⟨next, (table.shift inside).mpr ⟨outside, .shift member found passed, leads⟩, rfl⟩)

/-- A rule that was seen as a whole is reduced, and its symbols give way to its left-hand side. -/
private theorem acts_reduce (table : a.Tabulates g) {top rule : Nat} (high : top < a.stateCount) {production : Rule}
    (complete : ⟨rule, production.rhs.length⟩ ∈ a.items top) (ruled : g.rules[rule]? = some production) {rest : List Leaf}
    (follows : g.augment.Follows production.lhs (nextToken rest)) {state next : Nat} {lower below : List Nat}
    (same : (top :: lower).drop production.rhs.length = state :: below) (inside : state < a.stateCount)
    (outside : next < a.stateCount) (expects : g.augment.Expects (a.items state) (.nonterminal production.lhs))
    (leads : a.items next = g.augment.goto (a.items state) (.nonterminal production.lhs)) (position : Nat) (trace : List Event) :
    a.Acts ⟨top :: lower, rest, position, trace⟩ ⟨next :: state :: below, rest, position, .reduce rule :: trace⟩ := by
  have old : g.augment.rules[rule]? = some production := Numbered.augment_getElem?.mpr (Or.inl ruled)
  refine Or.inr (Automaton.step_eq_reduced.mpr ⟨rule, production, next, ?_, ?_, ?_, ?_⟩)
  · exact (table.reduce high).mpr (.reduce complete old follows)
  · rw [table.grammar, ruled]
  · rw [same]
    exact (table.goto inside).mpr ⟨outside, expects, leads⟩
  · rw [same]

end Automaton.Tabulates

/-- The states of some symbols lie on a stack, and the item that stood before them stands behind them. -/
structure Automaton.Advanced (a : Automaton) (item : Item) (count : Nat) (bottom : List Nat) (top : Nat)
    (lower : List Nat) : Prop where
  known : top < a.stateCount
  member : ⟨item.rule, item.dot + count⟩ ∈ a.items top
  bottom : (top :: lower).drop count = bottom

theorem Automaton.Advanced.succ {a : Automaton} {rule dot count next top : Nat} {stack lower : List Nat}
    (advanced : a.Advanced ⟨rule, dot + 1⟩ count (next :: stack) top lower) :
    a.Advanced ⟨rule, dot⟩ (count + 1) stack top lower where
  known := advanced.known
  member := by
    have member := advanced.member
    rwa [Nat.add_assoc, Nat.add_comm 1] at member
  bottom := by rw [List.drop_add_one_eq_tail_drop, advanced.bottom, List.tail_cons]

/-- The forest is shifted and reduced, and its roots lie on the stack as states. -/
theorem Forest.Of.runs {a : Automaton} {g : Numbered} {symbols : NumberedSymbols} {forest : Forest}
    (tree : forest.Of g symbols) (table : a.Tabulates g)
    (named : ∀ leaf ∈ forest.leaves, leaf.token ≠ Token.eos) {state rule dot position : Nat} {production : Rule}
    {more : NumberedSymbols} {below : List Nat} {rest : List Leaf} {trace : List Event} (inside : state < a.stateCount)
    (member : ⟨rule, dot⟩ ∈ a.items state) (known : g.augment.rules[rule]? = some production)
    (expected : production.rhs.drop dot = symbols ++ more) (ahead : g.augment.Ahead symbols (nextToken rest)) :
    ∃ top lower, a.Advanced ⟨rule, dot⟩ symbols.length (state :: below) top lower ∧
      Relation.ReflTransGen a.Acts ⟨state :: below, forest.leaves ++ rest, position, trace⟩
        ⟨top :: lower, rest, position + forest.leaves.length, (forest.listing .bottomUp).reverse ++ trace⟩ := by
  induction tree generalizing state rule dot position production more below rest trace with
  | nil => exact ⟨state, below, ⟨inside, member, rfl⟩, .refl⟩
  | @leaf first symbols forest _ ih =>
    have passed := named first (by simp [leaves])
    obtain ⟨later, next, outside, arrived, expects, leads⟩ :=
      table.exists_next inside member known expected (by simpa using passed)
    obtain ⟨top, lower, advanced, path⟩ := @ih (fun leaf member => named leaf (by simp [leaves, member]))
      next rule (dot + 1) (position + 1) production more (state :: below) rest (.shift first :: trace)
      outside arrived known later ahead.tail
    refine ⟨top, lower, advanced.succ, ?_⟩
    simpa [leaves, listing, Nat.add_assoc, Nat.add_comm] using
      path.head (table.acts_shift inside outside passed expects leads)
  | @node reduced inner symbols children forest ruled _ after ihc ih =>
    have named' : (∀ leaf ∈ children.leaves, leaf.token ≠ Token.eos) ∧ ∀ leaf ∈ forest.leaves, leaf.token ≠ Token.eos :=
      List.forall_mem_append.mp named
    have old : g.augment.rules[reduced]? = some inner := Numbered.augment_getElem?.mpr (Or.inl ruled)
    obtain ⟨later, next, outside, arrived, expects, leads⟩ := table.exists_next inside member known expected (by simp)
    obtain ⟨_, item, expecting, found⟩ := expects
    have front := (table.canonical inside).predicted expecting found old
    obtain ⟨top, lower, ⟨high, whole, same⟩, path⟩ := @ihc named'.1 state reduced 0 position inner [] below
      (forest.leaves ++ rest) trace inside front old (by simp) (after.augment.ahead (Array.mem_of_getElem? old) ahead)
    have step := table.acts_reduce high (by simpa using whole) ruled (after.augment.follows ahead) same inside outside
      ⟨by simp, item, expecting, found⟩ leads (position + children.leaves.length) ((children.listing .bottomUp).reverse ++ trace)
    obtain ⟨top, lower, advanced, path'⟩ := @ih named'.2 next rule (dot + 1) (position + children.leaves.length)
      production more (state :: below) rest (.reduce reduced :: ((children.listing .bottomUp).reverse ++ trace))
      outside arrived known later ahead.tail
    refine ⟨top, lower, advanced.succ, ?_⟩
    simpa [leaves, listing, Nat.add_assoc] using path.trans (path'.head step)

/-- From the start a derived sequence is worked through up to its acceptance. -/
theorem Forest.Of.accepts {a : Automaton} {g : Numbered} {forest : Forest} (tree : forest.Of g [.nonterminal g.start])
    (table : a.Tabulates g) (named : ∀ leaf ∈ forest.leaves, leaf.token ≠ Token.eos) :
    ∃ c d, Relation.ReflTransGen a.Acts (.initial forest.leaves) c ∧ a.step c = .accepted d ∧
      d.trace.reverse = forest.listing .bottomUp ++ [.accept] := by
  have last : g.augment.rules[g.rules.size]? = some g.acceptance := Numbered.augment_getElem?.mpr (Or.inr ⟨rfl, rfl⟩)
  have first : ⟨g.rules.size, 0⟩ ∈ a.items 0 := by
    rw [table.initial, ← Numbered.augment_size]
    exact .kernel rfl
  have ahead : g.augment.Ahead [.nonterminal g.start] (nextToken []) :=
    ⟨_, [], [], Derives.of_rule (Array.mem_of_getElem? last)⟩
  obtain ⟨top, lower, ⟨high, final, _⟩, path⟩ := @runs a g _ forest tree table named 0 g.rules.size 0 0 g.acceptance
    [.terminal Token.eos] [] [] [] table.zero_lt first last rfl ahead
  rw [List.append_nil, List.append_nil] at path
  refine ⟨_, _, path, Automaton.step_eq_accepted.mpr ⟨?_, rfl⟩, by simp⟩
  refine (table.accept high).mpr (.accept ?_)
  rw [Numbered.augment_size]
  exact final

end CommandLang
