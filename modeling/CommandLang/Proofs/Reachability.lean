import CommandLang.Proofs.Progress
import CommandLang.Proofs.Viability

/-! Which rules are of use. A nonterminal is reached if it comes up among the rules of the start symbol, the rules of the
nonterminals in them, and so on. If every nonterminal has a tree, the rules of those that are reached are the ones
that some state reduces, and no set of items asks for nothing. -/

namespace CommandLang

inductive Reached {τ ν : Type} (rule : ν → List (Symbol τ ν) → Prop) (start : ν) : ν → Prop where
  | start : Reached rule start start
  | used {lhs name : ν} {rhs : List (Symbol τ ν)} (reached : Reached rule start lhs) (known : rule lhs rhs)
      (member : .nonterminal name ∈ rhs) : Reached rule start name

/-- Whatever is derived from a nonterminal, its terminals come from rules. -/
theorem Derives.exists_rule_of_mem {τ ν : Type} {rule : ν → List (Symbol τ ν) → Prop} {start : ν} {form : List (Symbol τ ν)}
    (derived : Derives rule [.nonterminal start] form) {terminal : τ} (member : .terminal terminal ∈ form) :
    ∃ lhs rhs, rule lhs rhs ∧ .terminal terminal ∈ rhs := by
  induction derived with
  | refl => simp at member
  | tail _ step ih =>
    cases step with
    | intro front back known =>
      simp only [List.append_assoc, List.mem_append] at member
      rcases member with inside | inside | inside
      · exact ih (by simp [inside])
      · exact ⟨_, _, known, inside⟩
      · exact ih (by simp [inside])

namespace Numbered

variable {g : Numbered} {items : Set Item} {a : Nat}

private theorem reached_of_next? {item : Item} (next : g.augment.next? item = some (.nonterminal a))
    (reached : ∀ production, g.rules[item.rule]? = some production → Reached g.HasRule g.start production.lhs) :
    Reached g.HasRule g.start a := by
  obtain ⟨production, known, found⟩ := next?_eq_some.mp next
  have used := List.mem_of_getElem? found
  rcases augment_getElem?.mp known with old | ⟨_, rfl⟩
  · exact .used (reached production old) (Array.mem_of_getElem? old) used
  · obtain rfl : a = g.start := by simpa [acceptance] using used
    exact .start

private theorem InClosure.reached {kernel : Set Item} (all : ∀ item ∈ kernel, ∀ production,
      g.rules[item.rule]? = some production → Reached g.HasRule g.start production.lhs)
    {item : Item} (member : g.augment.InClosure kernel item) {production : Rule}
    (known : g.rules[item.rule]? = some production) : Reached g.HasRule g.start production.lhs := by
  induction member generalizing production with
  | kernel member => exact all _ member production known
  | predicted _ next ruled ih =>
    have old := augment_getElem?.mpr (Or.inl known)
    obtain rfl := Option.some.inj (old.symm.trans ruled)
    exact reached_of_next? next fun _ inner => ih inner

/-- The items of a state belong to rules of nonterminals that are reached. -/
theorem Canonical.reached (canonical : g.augment.Canonical items) {item : Item} (member : item ∈ items) {production : Rule}
    (known : g.rules[item.rule]? = some production) : Reached g.HasRule g.start production.lhs := by
  induction canonical generalizing item production with
  | start =>
    refine InClosure.reached ?_ member known
    intro item first production known
    have outside : item.rule = g.rules.size := by rw [Set.mem_singleton_iff.mp first, startItem, augment_size]
    exact absurd (Array.getElem?_eq_some_iff.mp known).1 (by omega)
  | goto _ _ ih =>
    refine InClosure.reached ?_ member known
    intro item advanced production known
    obtain ⟨before, inside, _, rfl⟩ := advanced
    exact ih inside known

variable (lawful : g.Lawful)

include lawful

theorem Lawful.expects_of_getElem? {rule dot : Nat} {production : Rule} {symbol : Symbol Nat Nat}
    (known : g.rules[rule]? = some production) (found : production.rhs[dot]? = some symbol) (member : ⟨rule, dot⟩ ∈ items) :
    g.augment.Expects items symbol ∧ ⟨rule, dot + 1⟩ ∈ g.augment.goto items symbol := by
  have next : g.augment.next? ⟨rule, dot⟩ = some symbol :=
    next?_eq_some.mpr ⟨production, augment_getElem?.mpr (Or.inl known), found⟩
  refine ⟨⟨?_, _, member, next⟩, .kernel ⟨_, member, next, rfl⟩⟩
  rintro rfl
  have above := lawful.uncontrolled production (mem_ruleList_of_getElem? known) _ (List.mem_of_getElem? found)
  simp [Token.controls, Token.eos] at above

/-- A rule that is about to be seen is seen up to any place in some state. -/
theorem Canonical.exists_advanced (canonical : g.augment.Canonical items) {rule : Nat} {production : Rule}
    (known : g.rules[rule]? = some production) (member : ⟨rule, 0⟩ ∈ items) {dot : Nat} (inside : dot ≤ production.rhs.length) :
    ∃ further, g.augment.Canonical further ∧ ⟨rule, dot⟩ ∈ further := by
  induction dot with
  | zero => exact ⟨items, canonical, member⟩
  | succ dot ih =>
    obtain ⟨further, canonical, here⟩ := ih (Nat.le_of_succ_le inside)
    obtain ⟨expects, advanced⟩ := lawful.expects_of_getElem? known (List.getElem?_eq_getElem inside) here
    exact ⟨_, .goto canonical expects, advanced⟩

/-- Some state expects each nonterminal that is reached. -/
theorem Lawful.exists_expecting (reached : Reached g.HasRule g.start a) :
    ∃ items item, g.augment.Canonical items ∧ item ∈ items ∧ g.augment.next? item = some (.nonterminal a) := by
  induction reached with
  | start =>
    have last : g.augment.rules[g.augment.startItem.rule]? = some g.acceptance :=
      augment_getElem?.mpr (Or.inr ⟨augment_size, rfl⟩)
    exact ⟨_, g.augment.startItem, .start, .kernel rfl, next?_eq_some.mpr ⟨_, last, rfl⟩⟩
  | used _ known member ih =>
    obtain ⟨items, item, canonical, expecting, next⟩ := ih
    obtain ⟨rule, known⟩ := Array.mem_iff_getElem?.mp known
    obtain ⟨dot, found⟩ := List.mem_iff_getElem?.mp member
    have old := augment_getElem?.mpr (Or.inl known)
    have fresh := canonical.predicted expecting next old
    have within := (List.getElem?_eq_some_iff.mp found).1
    obtain ⟨further, canonical, here⟩ := canonical.exists_advanced lawful known fresh (Nat.le_of_lt within)
    exact ⟨further, _, canonical, here, next?_eq_some.mpr ⟨_, old, found⟩⟩

/-- Lists whose elements are lists with the same separator are not told apart: behind an inner list the separator goes on with
it or with the outer one. -/
theorem Lawful.exists_clashing_of_lists {outer inner separator : Nat} {rest : NumberedSymbols}
    (reached : Reached g.HasRule g.start outer) (single : g.HasRule outer [.nonterminal inner])
    (more : g.HasRule outer [.nonterminal outer, .terminal separator, .nonterminal inner])
    (longer : g.HasRule inner (.nonterminal inner :: .terminal separator :: rest)) :
    ∃ items, g.augment.Canonical items ∧ g.augment.Clashing items := by
  obtain ⟨items, item, canonical, expecting, next⟩ := lawful.exists_expecting reached
  obtain ⟨rule, single⟩ := Array.mem_iff_getElem?.mp single
  obtain ⟨other, longer⟩ := Array.mem_iff_getElem?.mp longer
  have single' := augment_getElem?.mpr (Or.inl single)
  have longer' := augment_getElem?.mpr (Or.inl longer)
  have whole := canonical.predicted expecting next single'
  have begun := canonical.predicted whole (next?_eq_some.mpr ⟨_, single', rfl⟩) longer'
  obtain ⟨expects, reduced⟩ := lawful.expects_of_getElem? single rfl whole
  obtain ⟨_, shifted⟩ := lawful.expects_of_getElem? longer rfl begun
  have passed : separator ≠ Token.eos := by
    rintro rfl
    have above := lawful.uncontrolled _ (hasRule_iff.mp more) Token.eos (by simp)
    exact absurd above (by decide)
  have follows : g.augment.Follows outer separator :=
    ⟨outer, [], [.nonterminal inner], .of_rule (augment_hasRule.mpr (Or.inl more))⟩
  refine ⟨_, .goto canonical expects, separator, .reduce rule, .shift, ?_,
    .shift shifted (next?_eq_some.mpr ⟨_, longer', rfl⟩) passed, nofun⟩
  exact Asks.reduce (by exact reduced) single' follows

/-- Something can come behind each nonterminal that is reached, because what stands behind it in a rule has trees. -/
theorem Lawful.exists_follows (productive : g.Productive) (reached : Reached g.HasRule g.start a) :
    ∃ token, g.augment.Follows a token := by
  induction reached with
  | start =>
    exact ⟨Token.eos, g.acceptance.lhs, [], [], .of_rule (augment_hasRule.mpr (Or.inr ⟨rfl, rfl⟩))⟩
  | @used lhs name rhs _ known member ih =>
    obtain ⟨token, source, left, right, derived⟩ := ih
    obtain ⟨front, back, rfl⟩ := List.append_of_mem member
    have trees : ∃ forest : Forest, forest.Of g back := productive.exists_forest fun b used => by
      obtain ⟨other, inside, rfl⟩ := lawful.defined.ruled _ (hasRule_iff.mp known) b (by simp [used])
      exact ⟨_, hasRule_iff.mpr inside⟩
    obtain ⟨forest, tree⟩ := trees
    have opened := derived.rewrite (augment_hasRule.mpr (Or.inl known))
    have ahead : g.augment.Ahead (.nonterminal name :: back) (nextToken [⟨token, .none⟩]) :=
      ⟨source, left ++ front, right, by simpa [nextToken] using opened⟩
    exact ⟨_, tree.augment.follows ahead⟩

private theorem Lawful.exists_forest (productive : g.Productive) {rule : Nat} {production : Rule}
    (known : g.rules[rule]? = some production) (dot : Nat) : ∃ forest : Forest, forest.Of g (production.rhs.drop dot) := by
  refine productive.exists_forest fun a used => ?_
  obtain ⟨other, inside, rfl⟩ := lawful.defined.ruled _ (mem_ruleList_of_getElem? known) a (List.mem_of_mem_drop used)
  exact ⟨_, hasRule_iff.mpr inside⟩

/-- An item before symbols with trees asks for something: for the first token of the trees, or for the reduction of a
rule that derives nothing. -/
private theorem Canonical.asks_of_forest (canonical : g.augment.Canonical items) (productive : g.Productive)
    {symbols : NumberedSymbols} {forest : Forest} (tree : forest.Of g symbols) {rule dot : Nat} {production : Rule}
    (known : g.rules[rule]? = some production) (expected : production.rhs.drop dot = symbols) (member : ⟨rule, dot⟩ ∈ items) :
    ∃ token move, g.augment.Asks items token move := by
  induction tree generalizing rule dot production with
  | nil =>
    have old := augment_getElem?.mpr (Or.inl known)
    obtain ⟨other, ruled, inside⟩ := canonical.proper (by simp [augment_rules]) _ member
    obtain rfl := Option.some.inj (old.symm.trans ruled)
    obtain rfl : dot = production.rhs.length := Nat.le_antisymm inside (List.drop_eq_nil_iff.mp expected)
    obtain ⟨token, follows⟩ := lawful.exists_follows productive (canonical.reached member known)
    exact ⟨token, _, .reduce member old follows⟩
  | leaf _ _ =>
    have found := congrArg List.head? expected
    rw [List.head?_drop, List.head?_cons] at found
    obtain ⟨passed, _, here, next⟩ := (lawful.expects_of_getElem? known found member).1
    exact ⟨_, _, .shift here next (by simpa using passed)⟩
  | node ruled _ _ ih _ =>
    have found := congrArg List.head? expected
    rw [List.head?_drop, List.head?_cons] at found
    have next : g.augment.next? ⟨rule, dot⟩ = some _ :=
      next?_eq_some.mpr ⟨production, augment_getElem?.mpr (Or.inl known), found⟩
    exact ih ruled List.drop_zero (canonical.predicted member next (augment_getElem?.mpr (Or.inl ruled)))

/-- If every nonterminal has a tree, no state asks for nothing. -/
theorem Canonical.exists_asks (canonical : g.augment.Canonical items) (productive : g.Productive) :
    ∃ token move, g.augment.Asks items token move := by
  have busy : ∀ {rule dot production}, g.rules[rule]? = some production → ⟨rule, dot⟩ ∈ items →
      ∃ token move, g.augment.Asks items token move := by
    intro rule dot production known member
    obtain ⟨forest, tree⟩ := lawful.exists_forest productive known dot
    exact canonical.asks_of_forest lawful productive tree known rfl member
  cases canonical with
  | start =>
    have last : g.augment.rules[g.augment.startItem.rule]? = some g.acceptance :=
      augment_getElem?.mpr (Or.inr ⟨augment_size, rfl⟩)
    obtain ⟨rhs, known⟩ := lawful.start
    obtain ⟨rule, known⟩ := Array.mem_iff_getElem?.mp known
    exact busy known (.predicted (.kernel rfl) (next?_eq_some.mpr ⟨_, last, rfl⟩) (augment_getElem?.mpr (Or.inl known)))
  | @goto before symbol _ expects =>
    obtain ⟨passed, item, member, next⟩ := expects
    have advanced : ⟨item.rule, item.dot + 1⟩ ∈ g.augment.goto before symbol := .kernel ⟨item, member, next, rfl⟩
    obtain ⟨production, known, found⟩ := next?_eq_some.mp next
    rcases augment_getElem?.mp known with old | ⟨last, rfl⟩
    · exact busy old advanced
    · -- The start symbol was seen, because the end of the input is never passed.
      have first : item.dot = 0 := by
        match place : item.dot with
        | 0 => rfl
        | 1 => simp [place, acceptance] at found; exact absurd found.symm passed
        | dot + 2 => simp [place, acceptance] at found
      rw [last, first, ← augment_size] at advanced
      exact ⟨Token.eos, .accept, .accept advanced⟩

end Numbered

namespace Grammar

variable {g : Grammar} {a : Automaton}

/-- A grammar whose nonterminals have trees has an automaton if no state asks for two things on one token. -/
theorem exists_automaton (plain : g.hasRules Numbered.acceptName = false) (productive : g.number.Productive)
    (clean : g.number.Clean) : ∃ a, g.automaton = .ok a := by
  rcases exists_automaton_or_firstIdle plain clean with built | ⟨state, _, ⟨items, place, idle⟩, _⟩
  · exact built
  · obtain ⟨token, move, asks⟩ := (place.canonical g.number_lawful).exists_asks g.number_lawful productive
    exact absurd asks (idle token move)

theorem lt_tokenCount_of_follows {lhs token : Nat} (follows : g.number.augment.Follows lhs token) :
    token < g.number.tokenCount := by
  obtain ⟨_, _, _, derived⟩ := follows
  obtain ⟨_, rhs, known, used⟩ : ∃ lhs rhs, g.number.augment.HasRule lhs rhs ∧ .terminal token ∈ rhs :=
    derived.exists_rule_of_mem (by simp)
  rcases Numbered.augment_hasRule.mp known with old | ⟨_, rfl⟩
  · obtain ⟨name, source, ruled, _, rfl⟩ := number_hasRule.mp old
    obtain ⟨symbol, inside, same⟩ := List.mem_map.mp used
    cases symbol with
    | nonterminal => cases same
    | terminal terminal =>
      have member : terminal ∈ g.terminals := g.mem_terminals.mpr (Or.inl ⟨name, source, ruled, inside⟩)
      rw [← Symbol.terminal.inj same]
      simpa [Numbered.tokenCount, number] using List.idxOf_lt_length_of_mem member
  · obtain rfl : token = Token.eos := by simpa [Numbered.acceptance] using used
    exact Nat.lt_of_lt_of_le (by decide : Token.eos < Token.controls) (Nat.le_add_right ..)

theorem reduced_iff_reached (productive : g.number.Productive) (built : g.automaton = .ok a) {rule : Nat} {production : Rule}
    (known : g.number.rules[rule]? = some production) :
    (∃ state < a.stateCount, ∃ token < g.number.tokenCount, a.action state token = .reduce rule) ↔
      Reached g.number.HasRule g.number.start production.lhs := by
  have table := automaton_tabulates built
  have lawful := g.number_lawful
  have old := Numbered.augment_getElem?.mpr (Or.inl known)
  constructor
  · intro ⟨state, inside, token, _, acts⟩
    cases (table.reduce inside).mp acts with
    | reduce member _ _ => exact (table.canonical inside).reached member known
  · intro reached
    obtain ⟨items, item, canonical, expecting, next⟩ := lawful.exists_expecting reached
    obtain ⟨further, canonical, whole⟩ :=
      canonical.exists_advanced lawful known (canonical.predicted expecting next old) (Nat.le_refl _)
    obtain ⟨token, follows⟩ := lawful.exists_follows productive reached
    obtain ⟨state, inside, rfl⟩ := table.states.surjOn canonical
    exact ⟨state, inside, token, lt_tokenCount_of_follows follows, (table.reduce inside).mpr (.reduce whole old follows)⟩

/-- Numbers are only names: the same nonterminals are reached. -/
theorem reached_number {name : String} (ruled : name ∈ g.rules.keys) :
    Reached g.number.HasRule g.number.start (g.rules.keys.idxOf name) ↔ Reached g.HasRule g.start name := by
  constructor
  · intro reached
    generalize same : g.rules.keys.idxOf name = a at reached
    induction reached generalizing name with
    | start => rw [(List.idxOf_inj ruled).mp same]; exact .start
    | used _ known member ih =>
      obtain ⟨lhs, source, rule, rfl, rfl⟩ := number_hasRule.mp known
      obtain ⟨symbol, used, number⟩ := List.mem_map.mp member
      cases symbol with
      | terminal => cases number
      | nonterminal other =>
        have equal := Symbol.nonterminal.inj number
        rw [← same] at equal
        obtain ⟨rhs, inner⟩ := g.ruled rule used
        obtain rfl := (List.idxOf_inj inner.mem_keys).mp equal
        exact .used (ih rule.mem_keys rfl) rule used
  · intro reached
    clear ruled
    induction reached with
    | start => exact .start
    | used _ known member ih =>
      exact .used ih (number_hasRule.mpr ⟨_, _, known, rfl, rfl⟩) (List.mem_map.mpr ⟨_, member, rfl⟩)

/-- A grammar with such lists of lists has no automaton. -/
theorem exists_conflict_of_lists {outer inner : String} {separator : Terminal} {rest : Rhs}
    (plain : g.hasRules Numbered.acceptName = false) (reached : Reached g.HasRule g.start outer)
    (single : g.HasRule outer [.nonterminal inner])
    (more : g.HasRule outer [.nonterminal outer, .terminal separator, .nonterminal inner])
    (longer : g.HasRule inner (.nonterminal inner :: .terminal separator :: rest)) :
    ∃ error, g.automaton = .error error ∧ error.IsConflict := by
  obtain ⟨items, canonical, clashing⟩ := g.number_lawful.exists_clashing_of_lists
    ((reached_number more.mem_keys).mpr reached) (number_hasRule.mpr ⟨_, _, single, rfl, rfl⟩)
    (number_hasRule.mpr ⟨_, _, more, rfl, rfl⟩) (number_hasRule.mpr ⟨_, _, longer, rfl, rfl⟩)
  exact exists_conflict plain canonical clashing

end Grammar

end CommandLang
