import CommandLang.Proofs.Forest
import CommandLang.Proofs.Stack

/-! What a machine has done. At every moment the leaves that were shifted are those of a forest whose roots lie on
the stack, and the trace lists this forest. An accepted sequence is therefore derived from the start symbol. -/

namespace CommandLang

namespace Automaton

variable {a : Automaton} {c d : Config}

private theorem reduce_eq_reduced {rule : Nat} : a.reduce c rule = .reduced d ↔ ∃ production next,
    a.grammar.rules[rule]? = some production ∧
    a.goto ((c.stack.drop production.rhs.length).headD 0) production.lhs = some next ∧
    d = { c with stack := next :: c.stack.drop production.rhs.length, trace := .reduce rule :: c.trace } := by
  rw [reduce]
  split
  next none => simp [none]
  next production known =>
    simp only [known, Option.some.injEq, exists_and_left, exists_eq_left']
    split
    next none => simp only [none, reduceCtorEq, false_and, exists_false]
    next target found => simp only [found, Option.some.injEq, exists_eq_left', Step.reduced.injEq, eq_comm]

private theorem reduce_cases (a : Automaton) (c : Config) (rule : Nat) :
    (∃ d, a.reduce c rule = .reduced d) ∨ ∃ error, a.reduce c rule = .rejected error := by
  simp only [reduce]
  split
  · exact Or.inr ⟨_, rfl⟩
  · split
    · exact Or.inr ⟨_, rfl⟩
    · exact Or.inl ⟨_, rfl⟩

theorem step_eq_shifted : a.step c = .shifted d ↔ ∃ next, a.action c.state c.next.token = .shift next ∧
    d = ⟨next :: c.stack, c.rest.tail, c.position + 1, .shift c.next :: c.trace⟩ := by
  rw [step]
  split
  next acts => simp [acts, eq_comm]
  next rule acts => rcases reduce_cases a c rule with ⟨d, same⟩ | ⟨error, same⟩ <;> simp [acts, same]
  next acts => simp [acts]
  next acts => simp [acts]

theorem step_eq_reduced : a.step c = .reduced d ↔ ∃ rule production next,
    a.action c.state c.next.token = .reduce rule ∧ a.grammar.rules[rule]? = some production ∧
    a.goto ((c.stack.drop production.rhs.length).headD 0) production.lhs = some next ∧
    d = { c with stack := next :: c.stack.drop production.rhs.length, trace := .reduce rule :: c.trace } := by
  rw [step]
  split
  next acts => simp [acts]
  next rule acts =>
    rw [reduce_eq_reduced]
    simp only [acts, Action.reduce.injEq, exists_and_left, exists_eq_left']
  next acts => simp [acts]
  next acts => simp [acts]

theorem step_eq_accepted : a.step c = .accepted d ↔
    a.action c.state c.next.token = .accept ∧ d = { c with trace := .accept :: c.trace } := by
  rw [step]
  split
  next acts => simp [acts]
  next rule acts => rcases reduce_cases a c rule with ⟨d, same⟩ | ⟨error, same⟩ <;> simp [acts, same]
  next acts => simp [acts, eq_comm]
  next acts => simp [acts]

theorem error_of_rejected {error : ParseError} (step : a.step c = .rejected error) :
    error = .unexpectedToken c.position c.next.token c.state := by
  rw [Automaton.step] at step
  split at step
  · cases step
  · rw [reduce] at step
    split at step
    · exact (Step.rejected.inj step).symm
    · dsimp only at step
      split at step
      · exact (Step.rejected.inj step).symm
      · cases step
  · cases step
  · exact (Step.rejected.inj step).symm

end Automaton

namespace Automaton.Stacked

variable {a : Automaton} {g : Numbered} {symbols : NumberedSymbols} {c : Config} {token : Nat}

theorem shift (stacked : a.Stacked g c.stack symbols) (table : a.Tabulates g) {next : Nat}
    (acts : a.action c.state token = .shift next) :
    token ≠ Token.eos ∧ a.Stacked g (next :: c.stack) (.terminal token :: symbols) := by
  obtain ⟨inside, asks, leads⟩ := (table.shift (stacked.head_lt table)).mp acts
  cases asks with
  | shift member expected passed =>
    exact ⟨passed, stacked.push_head inside ⟨by simpa using passed, _, member, expected⟩ leads⟩

theorem reduce (stacked : a.Stacked g c.stack symbols) (table : a.Tabulates g) (lawful : g.Lawful) {rule : Nat}
    (asks : g.augment.Asks (a.items c.state) token (.reduce rule)) :
    ∃ production rest next, g.rules[rule]? = some production ∧ symbols = production.rhs.reverse ++ rest ∧
      a.Stacked g (next :: c.stack.drop production.rhs.length) (.nonterminal production.lhs :: rest) ∧
      a.goto ((c.stack.drop production.rhs.length).headD 0) production.lhs = some next := by
  cases asks with
  | @reduce _ _ production member known follows =>
    have old := lawful.getElem?_of_follows known follows
    obtain ⟨other, rest, ruled, rfl, below, front⟩ := stacked.seen table member
    obtain rfl := Option.some.inj (known.symm.trans ruled)
    rw [List.take_length]
    have inside := below.head_lt table
    have expects := Numbered.expects_of_mem (table.canonical inside) front old
    obtain ⟨next, outside, leads⟩ := table.exists_goto inside expects
    exact ⟨production, rest, next, old, rfl, below.push_head outside expects leads,
      (table.goto inside).mpr ⟨outside, expects, leads⟩⟩

theorem accept (stacked : a.Stacked g c.stack symbols) (table : a.Tabulates g) (lawful : g.Lawful)
    (asks : g.augment.Asks (a.items c.state) token .accept) :
    token = Token.eos ∧ symbols = [.nonterminal g.start] := by
  cases asks with
  | accept member =>
    rw [Numbered.augment_size] at member
    obtain ⟨production, rest, known, rfl, below, front⟩ := stacked.seen table member
    have inside := below.head_lt table
    have first := lawful.start_of_mem (table.canonical inside) front
    have zero := table.states.injOn inside table.zero_lt (first.trans table.initial.symm)
    obtain ⟨_, rfl⟩ := below.eq_start table zero
    rcases Numbered.augment_getElem?.mp known with old | ⟨_, rfl⟩
    · exact absurd (Array.getElem?_eq_some_iff.mp old).1 (Nat.lt_irrefl _)
    · exact ⟨rfl, rfl⟩

end Automaton.Stacked

/-- What was shifted are the leaves of a forest that the trace lists. -/
def Automaton.Parsed (a : Automaton) (g : Numbered) (leaves : List Leaf) (c : Config) : Prop :=
  ∃ symbols, ∃ forest : Forest, a.Stacked g c.stack symbols ∧ forest.Of g symbols.reverse ∧
    forest.leaves ++ c.rest = leaves ∧ c.trace.reverse = forest.listing .bottomUp

namespace Automaton.Parsed

variable {a : Automaton} {g : Numbered} {leaves : List Leaf} {c d : Config}

theorem initial : a.Parsed g leaves (.initial leaves) := ⟨[], .nil, .start, .nil, rfl, rfl⟩

theorem shifted (parsed : a.Parsed g leaves c) (table : a.Tabulates g) (step : a.step c = .shifted d) :
    a.Parsed g leaves d := by
  obtain ⟨symbols, forest, stacked, tree, rfl, listed⟩ := parsed
  obtain ⟨next, acts, rfl⟩ := step_eq_shifted.mp step
  obtain ⟨passed, stacked⟩ := stacked.shift table acts
  cases more : c.rest with
  | nil => exact absurd (by simp [Config.next, more]) passed
  | cons first rest =>
    have here : c.next = first := by simp [Config.next, more]
    rw [here] at stacked
    refine ⟨_, forest.append (.leaf first .nil), stacked, ?_, ?_, ?_⟩
    · rw [List.reverse_cons]
      exact tree.append (.leaf .nil)
    · simp [Forest.leaves]
    · simp [Forest.listing, listed, here]

theorem reduced (parsed : a.Parsed g leaves c) (table : a.Tabulates g) (lawful : g.Lawful)
    (step : a.step c = .reduced d) : a.Parsed g leaves d := by
  obtain ⟨symbols, forest, stacked, tree, rfl, listed⟩ := parsed
  obtain ⟨rule, production, next, acts, known, leads, rfl⟩ := step_eq_reduced.mp step
  have asks := (table.reduce (stacked.head_lt table)).mp acts
  obtain ⟨other, rest, target, ruled, rfl, stacked, same⟩ := stacked.reduce table lawful asks
  rw [table.grammar] at known
  obtain rfl := Option.some.inj (known.symm.trans ruled)
  obtain rfl := Option.some.inj (leads.symm.trans same)
  rw [List.reverse_append, List.reverse_reverse] at tree
  obtain ⟨before, children, rfl, one, below⟩ := tree.split
  refine ⟨_, before.append (.node rule children .nil), stacked, ?_, ?_, ?_⟩
  · rw [List.reverse_cons]
    exact one.append (.node known below .nil)
  · simp [Forest.leaves]
  · simp [Forest.listing, listed]

theorem accepted (parsed : a.Parsed g leaves c) (table : a.Tabulates g) (lawful : g.Lawful)
    (named : ∀ leaf ∈ leaves, leaf.token ≠ Token.eos) (step : a.step c = .accepted d) :
    ∃ forest : Forest, forest.Of g [.nonterminal g.start] ∧ forest.leaves = leaves ∧
      d.trace.reverse = forest.listing .bottomUp ++ [.accept] := by
  obtain ⟨symbols, forest, stacked, tree, rfl, listed⟩ := parsed
  obtain ⟨acts, rfl⟩ := step_eq_accepted.mp step
  obtain ⟨last, rfl⟩ := stacked.accept table lawful ((table.accept (stacked.head_lt table)).mp acts)
  have done : c.rest = [] := by
    cases more : c.rest with
    | nil => rfl
    | cons first rest =>
      refine absurd ?_ (named first (by simp [more]))
      simpa [Config.next, more] using last
  exact ⟨forest, tree, by simp [done], by simp [listed]⟩

end Automaton.Parsed

end CommandLang
