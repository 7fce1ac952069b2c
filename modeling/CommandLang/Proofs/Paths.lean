import CommandLang.Proofs.Outcome
import CommandLang.Proofs.Termination

/-! Paths through an automaton. The stack of a machine is a path from state zero, and the symbols on it are told by its
states. So a rule that is to be reduced lies on top of the stack as a whole, with more below it, and from the state that
it uncovers there is a way on: a machine takes nothing away that is not there, and fails only where its table says so. -/

namespace CommandLang

namespace Automaton

def Leads (a : Automaton) (state : Nat) : Symbol Nat Nat → Nat → Prop
  | .terminal token, next => a.action state token = .shift next
  | .nonterminal nonterminal, next => a.goto state nonterminal = some next

/-- The states that are passed along some symbols from state zero on, both with the latest first. -/
inductive Path (a : Automaton) : List Nat → NumberedSymbols → Prop where
  | start : Path a [0] []
  | step {state next : Nat} {below : List Nat} {symbol : Symbol Nat Nat} {symbols : NumberedSymbols}
      (before : Path a (state :: below) symbols) (leads : a.Leads state symbol next) :
      Path a (next :: state :: below) (symbol :: symbols)

/-- A rule lies on top of a path, its right-hand side with the last symbol first. Something is left below it, and the
state there leads on behind the left-hand side. -/
def Topped (a : Automaton) (stack : List Nat) (symbols : NumberedSymbols) (rule : Nat) : Prop :=
  ∃ production next, a.grammar.rules[rule]? = some production ∧ production.rhs.length < stack.length ∧
    symbols.take production.rhs.length = production.rhs.reverse ∧
    a.goto ((stack.drop production.rhs.length).headD 0) production.lhs = some next

/-- Every rule among the events finds as many listings to gather as it has symbols. -/
def Gathers (a : Automaton) (events : List Event) : Prop :=
  ∀ before rule after, events = before ++ .reduce rule :: after →
    ∃ production, a.grammar.rules[rule]? = some production ∧ production.rhs.length ≤ (before.foldl a.gather []).length

theorem Gathers.accept {a : Automaton} {events : List Event} (gathers : a.Gathers events) : a.Gathers (events ++ [.accept]) := by
  intro before rule after whole
  rcases append_cons_eq_append whole.symm with ⟨inner, rfl, _⟩ | ⟨inner, _, last⟩
  · exact gathers before rule inner rfl
  · cases inner with
    | nil => cases last
    | cons first rest => simp at last

/-- What a machine relies on and never checks. -/
structure Safe (a : Automaton) (c : Config) : Prop where
  inside : ∀ state ∈ c.stack, state < a.stateCount
  path : ∃! symbols, a.Path c.stack symbols
  topped : ∀ rule, a.action c.state c.next.token = .reduce rule →
    rule < a.ruleCount ∧ ∀ symbols, a.Path c.stack symbols → a.Topped c.stack symbols rule
  /-- A way on that is missing behind a left-hand side is never what a machine fails with. -/
  rejects : ∀ error, a.step c = .rejected error → a.action c.state c.next.token = .error
  gathers : a.Gathers c.trace.reverse

end Automaton

theorem Numbered.Expects.symbol_unique {g : Numbered} {items : Set Item} {symbol other : Symbol Nat Nat}
    (expects : g.Expects items symbol) (same : g.goto items symbol = g.goto items other) : symbol = other := by
  obtain ⟨rule, dot, member⟩ := expects.exists_dot
  obtain ⟨_, next⟩ := mem_of_mem_goto member
  rw [same] at member
  obtain ⟨_, next'⟩ := mem_of_mem_goto member
  exact Option.some.inj (next.symm.trans next')

namespace Automaton

variable {a : Automaton} {g : Numbered} {c d : Config} {leaves : List Leaf} {stack : List Nat} {symbols : NumberedSymbols}

theorem Tabulates.leads_iff (table : a.Tabulates g) {state next : Nat} (inside : state < a.stateCount)
    {symbol : Symbol Nat Nat} : a.Leads state symbol next ↔ next < a.stateCount ∧
      g.augment.Expects (a.items state) symbol ∧ a.items next = g.augment.goto (a.items state) symbol := by
  cases symbol with
  | nonterminal nonterminal => exact table.goto inside
  | terminal token =>
    have expects : g.augment.Asks (a.items state) token .shift ↔ g.augment.Expects (a.items state) (.terminal token) := by
      constructor
      · intro asks
        cases asks with
        | shift member next passed => exact ⟨by simpa using passed, _, member, next⟩
      · intro ⟨passed, _, member, next⟩
        exact .shift member next (by simpa using passed)
    rw [Leads, table.shift inside, expects]

theorem Tabulates.path_iff (table : a.Tabulates g) : a.Path stack symbols ↔ a.Stacked g stack symbols := by
  constructor
  · intro path
    induction path with
    | start => exact .start
    | step _ leads ih =>
      obtain ⟨outside, expects, same⟩ := (table.leads_iff (ih.head_lt table)).mp leads
      exact .push ih outside expects same
  · intro stacked
    induction stacked with
    | start => exact .start
    | push before outside expects same ih =>
      apply Path.step ih
      exact (table.leads_iff (before.head_lt table)).mpr ⟨outside, expects, same⟩

theorem Stacked.symbols_unique {others : NumberedSymbols} (stacked : a.Stacked g stack symbols)
    (stacked' : a.Stacked g stack others) : others = symbols := by
  induction stacked generalizing others with
  | start =>
    cases stacked'
    rfl
  | push _ _ expects leads ih =>
    cases stacked' with
    | push before' _ _ leads' => rw [ih before', expects.symbol_unique (leads.symm.trans leads')]

theorem Stacked.topped (stacked : a.Stacked g c.stack symbols) (table : a.Tabulates g) (lawful : g.Lawful) {rule token : Nat}
    (acts : a.action c.state token = .reduce rule) : a.Topped c.stack symbols rule := by
  have high := stacked.length_eq
  have asks := (table.reduce (stacked.head_lt table)).mp acts
  obtain ⟨production, rest, next, known, rfl, _, leads⟩ := stacked.reduce table lawful asks
  rw [← table.grammar] at known
  refine ⟨production, next, known, ?_, ?_, leads⟩
  · rw [List.length_append, List.length_reverse] at high
    omega
  · rw [← List.length_reverse, List.take_left]

theorem Parsed.length_gathered (parsed : a.Parsed g leaves c) (table : a.Tabulates g) :
    (c.trace.reverse.foldl a.gather []).length + 1 = c.stack.length := by
  obtain ⟨symbols, forest, stacked, roots, _, listed⟩ := parsed
  rw [← table.grammar] at roots
  rw [listed, roots.foldl_gather, List.append_nil, List.length_reverse, roots.length_parts, List.length_reverse,
    stacked.length_eq]

section Reached

variable (table : a.Tabulates g) (lawful : g.Lawful) (path : Relation.ReflTransGen a.Acts (.initial leaves) c)

include table lawful path

theorem gathers_of_reaches : a.Gathers c.trace.reverse := by
  intro before rule after whole
  have split : c.trace = after.reverse ++ .reduce rule :: before.reverse := by
    rw [← List.reverse_reverse c.trace, whole]
    simp
  obtain ⟨d, path', _, traced⟩ := exists_between path rfl split
  rcases Relation.ReflTransGen.cases_tail path' with rfl | ⟨e, path', acts⟩
  · cases traced
  · rcases acts.cases with ⟨_, _, added⟩ | ⟨other, step, added⟩
    · cases (List.cons.inj (traced.symm.trans added)).1
    · have parsed := Parsed.reaches table lawful path'
      have count := parsed.length_gathered table
      obtain ⟨symbols, _, stacked, _⟩ := parsed
      obtain ⟨reduced, production, _, asked, known, _, rfl⟩ := step_eq_reduced.mp step
      obtain ⟨same, earlier⟩ := List.cons.inj traced
      obtain rfl := Event.reduce.inj same
      obtain ⟨production', _, known', high, _⟩ := stacked.topped table lawful asked
      obtain rfl := Option.some.inj (known.symm.trans known')
      rw [earlier, List.reverse_reverse] at count
      exact ⟨production, known, by omega⟩

theorem safe_of_reaches : a.Safe c := by
  obtain ⟨symbols, _, stacked, _⟩ := Parsed.reaches table lawful path
  refine ⟨stacked.inside table, ?_, ?_, ?_, gathers_of_reaches table lawful path⟩
  · refine ⟨symbols, table.path_iff.mpr stacked, ?_⟩
    intro others path'
    exact stacked.symbols_unique (table.path_iff.mp path')
  · intro rule acts
    obtain ⟨production, _, known, _⟩ := stacked.topped table lawful acts
    refine ⟨(Array.getElem?_eq_some_iff.mp known).1, ?_⟩
    intro others path'
    exact (table.path_iff.mp path').topped table lawful acts
  · intro error step
    cases acts : a.action c.state c.next.token with
    | error => rfl
    | shift next => cases step.symm.trans (step_eq_shifted.mpr ⟨next, acts, rfl⟩)
    | accept => cases step.symm.trans (step_eq_accepted.mpr ⟨acts, rfl⟩)
    | reduce rule =>
      obtain ⟨production, next, known, _, _, leads⟩ := stacked.topped table lawful acts
      cases step.symm.trans (step_eq_reduced.mpr ⟨rule, production, next, acts, known, leads, rfl⟩)

end Reached

section Answers

variable (table : a.Tabulates g) (lawful : g.Lawful)
  (safe : ∀ c, Relation.ReflTransGen a.Acts (.initial leaves) c → a.Safe c)

include table lawful safe

theorem error_of_unexpected {position token state : Nat}
    (failed : a.parseBottomUp leaves = .error (.unexpectedToken position token state)) : a.action state token = .error := by
  have fits := payloadFits_of_parseBottomUp_eq_error failed nofun nofun
  obtain ⟨d, path, ended⟩ := parseBottomUp_cases table lawful fits
  rcases ended with ⟨_, _, accepted⟩ | ⟨error, step, rejected⟩ | ⟨_, _, _, given⟩
  · cases failed.symm.trans accepted
  · obtain rfl := Except.error.inj (failed.symm.trans rejected)
    have idle := (safe d path).rejects _ step
    obtain ⟨_, rfl, rfl⟩ := ParseError.unexpectedToken.inj (error_of_rejected step)
    exact idle
  · cases failed.symm.trans given

theorem gathers_of_parse {events : List Event} (parsed : a.parseBottomUp leaves = .ok events) : a.Gathers events := by
  have fits := ((parse_eq_ok_iff table lawful .bottomUp).mp parsed).1
  obtain ⟨d, path, ended⟩ := parseBottomUp_cases table lawful fits
  rcases ended with ⟨e, step, accepted⟩ | ⟨_, _, rejected⟩ | ⟨_, _, _, given⟩
  · obtain rfl := Except.ok.inj (parsed.symm.trans accepted)
    obtain ⟨_, rfl⟩ := step_eq_accepted.mp step
    rw [List.reverse_cons]
    exact (safe d path).gathers.accept
  · cases parsed.symm.trans rejected
  · cases parsed.symm.trans given

end Answers

end Automaton

namespace Grammar

/-- Wherever a machine comes to, whatever the leaves are, it is safe: its stack is a path, and a rule that it reduces lies
on top of this path. So an unexpected token is one for which the table has no action, and putting the events of an
accepted sequence into the other order never asks for listings that are not there. -/
theorem machine_safe {g : Grammar} {a : Automaton} (built : g.automaton = .ok a) (leaves : List Leaf) :
    (∀ c, Relation.ReflTransGen a.Acts (.initial leaves) c → a.Safe c) ∧
    (∀ order position token state, a.parse order leaves = .error (.unexpectedToken position token state) →
      a.action state token = .error) ∧
    ∀ events, a.parse .bottomUp leaves = .ok events → a.Gathers events := by
  have table := automaton_tabulates built
  have safe : ∀ c, Relation.ReflTransGen a.Acts (.initial leaves) c → a.Safe c := fun c path =>
    Automaton.safe_of_reaches table g.number_lawful path
  refine ⟨safe, ?_, ?_⟩
  · intro order position token state failed
    exact Automaton.error_of_unexpected table g.number_lawful safe ((a.parse_eq_error_iff order).mp failed)
  · intro events parsed
    exact Automaton.gathers_of_parse table g.number_lawful safe parsed

/-- Behind `send to anna` a rule with three symbols is reduced, and the sequence is accepted. -/
theorem machine_safe_errand : ∃ a, errand.automaton = .ok a ∧
    (∃ c, Relation.ReflTransGen a.Acts (.initial [⟨3, .none⟩, ⟨4, .none⟩, ⟨5, .index 0⟩]) c ∧
      c.stack = [6, 4, 3, 2, 0] ∧ a.action c.state c.next.token = .reduce 2 ∧ a.Safe c) ∧
    ∃ events, a.parse .bottomUp [⟨3, .none⟩, ⟨4, .none⟩, ⟨5, .index 0⟩] = .ok events ∧ a.Gathers events := by
  let start := Config.initial [⟨3, .none⟩, ⟨4, .none⟩, ⟨5, .index 0⟩]
  let sent : Config := ⟨[2, 0], [⟨4, .none⟩, ⟨5, .index 0⟩], 1, [.shift ⟨3, .none⟩]⟩
  let listed : Config := ⟨[3, 2, 0], [⟨4, .none⟩, ⟨5, .index 0⟩], 1, [.reduce 1, .shift ⟨3, .none⟩]⟩
  let addressed : Config := ⟨[4, 3, 2, 0], [⟨5, .index 0⟩], 2, [.shift ⟨4, .none⟩, .reduce 1, .shift ⟨3, .none⟩]⟩
  let named : Config :=
    ⟨[6, 4, 3, 2, 0], [], 3, [.shift ⟨5, .index 0⟩, .shift ⟨4, .none⟩, .reduce 1, .shift ⟨3, .none⟩]⟩
  have steps : (errand.automaton.toOption.map fun a =>
      (a.step start, a.step sent, a.step listed, a.step addressed, a.action named.state named.next.token)) =
      some (.shifted sent, .reduced listed, .shifted addressed, .shifted named, .reduce 2) := by decide +kernel
  have answer : (errand.automaton.toOption.map fun a => a.parse .bottomUp [⟨3, .none⟩, ⟨4, .none⟩, ⟨5, .index 0⟩]) =
      some (.ok [.shift ⟨3, .none⟩, .reduce 1, .shift ⟨4, .none⟩, .shift ⟨5, .index 0⟩, .reduce 2, .reduce 0, .accept]) := by
    decide +kernel
  obtain ⟨a, built⟩ := errand_automaton
  rw [built] at steps answer
  have parsed := Option.some.inj answer
  simp only [Except.toOption, Option.map_some, Option.some.injEq, Prod.mk.injEq] at steps
  obtain ⟨first, second, third, fourth, acts⟩ := steps
  have path : Relation.ReflTransGen a.Acts start named :=
    .head (Or.inl first) (.head (Or.inr second) (.head (Or.inl third) (.single (Or.inl fourth))))
  have safe := machine_safe built [⟨3, .none⟩, ⟨4, .none⟩, ⟨5, .index 0⟩]
  exact ⟨a, built, ⟨named, path, rfl, acts, safe.1 named path⟩, _, parsed, safe.2.2 _ parsed⟩

end Grammar

end CommandLang
