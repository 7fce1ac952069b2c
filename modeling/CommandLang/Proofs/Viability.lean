import CommandLang.Proofs.Machine

/-! What a machine has seen begins a sequence of the language. The items of a state tell how the rules around the
stack can go on, and if every nonterminal has a tree, so can they. The tree that they make up begins with the
forest that the machine has built. -/

namespace CommandLang

/-- Every nonterminal derives some sequence of terminals. -/
def Draft.Productive (d : Draft) : Prop :=
  ∀ lhs rhs, d.HasRule lhs rhs → ∃ word : List Terminal, Derives d.HasRule [.nonterminal lhs] (word.map .terminal)

/-- Every nonterminal has a tree. -/
def Numbered.Productive (g : Numbered) : Prop :=
  ∀ lhs rhs, g.HasRule lhs rhs → ∃ tree : Forest, tree.Of g [.nonterminal lhs]

/-- A sequence begins a sequence of the language. -/
def Draft.Viable (d : Draft) (word : List Terminal) : Prop := ∃ rest, d.Generates (word ++ rest)

theorem Draft.Viable.of_prefix {d : Draft} {word longer : List Terminal} (viable : d.Viable longer)
    (begins : word <+: longer) : d.Viable word := by
  obtain ⟨rest, generated⟩ := viable
  obtain ⟨more, rfl⟩ := begins
  exact ⟨more ++ rest, by rwa [← List.append_assoc]⟩

namespace Grammar

variable {g : Grammar}

def bareLeaf (g : Grammar) (terminal : Terminal) : Leaf := ⟨Token.controls + g.terminals.idxOf terminal, .none⟩

theorem number_bareLeaves (word : List Terminal) :
    ((word.map g.bareLeaf).map fun leaf => .terminal leaf.token) = (word.map Symbol.terminal).map g.symbolNumber := by
  rw [List.map_map, List.map_map]
  rfl

theorem number_productive (productive : g.Productive) : g.number.Productive := by
  intro lhs rhs known
  obtain ⟨name, source, ruled, rfl, rfl⟩ := number_hasRule.mp known
  obtain ⟨word, derived⟩ := productive name source ruled
  have numbered := derives_number derived
  rw [← number_bareLeaves] at numbered
  obtain ⟨tree, root, _⟩ := Forest.Of.of_derives numbered
  exact ⟨tree, root⟩

theorem viable_iff {leaves : List Leaf} {word : List Terminal}
    (named : List.Forall₂ (fun token terminal => g.number.terminal? token = some terminal)
      (leaves.map Leaf.token) word) :
    g.Viable word ↔ ∃ (after : List Leaf) (tree : Forest),
      tree.Of g.number [.nonterminal g.number.start] ∧ tree.leaves = leaves ++ after := by
  have numbers : (leaves.map fun leaf => .terminal leaf.token) = (word.map Symbol.terminal).map g.symbolNumber := by
    rw [← numbers_of_named named, List.map_map]
    rfl
  refine ⟨?_, ?_⟩
  · intro ⟨rest, generated⟩
    have numbered := derives_number generated
    rw [List.map_append, List.map_append, ← numbers, ← number_bareLeaves, ← List.map_append] at numbered
    obtain ⟨tree, root, whole⟩ := Forest.Of.of_derives numbered
    exact ⟨_, tree, root, whole⟩
  · intro ⟨after, tree, root, whole⟩
    obtain ⟨source, same, derived⟩ := derives_of_number [.nonterminal g.start] root.derives
    rw [whole, List.map_append] at same
    obtain ⟨front, back, rfl, first, second⟩ := List.map_eq_append_iff.mp same.symm
    obtain rfl := eq_of_numbers named ((numbers_of_named named).trans (numbers.symm.trans first.symm))
    have tokens : (after.map Leaf.token).map Symbol.terminal = back.map g.symbolNumber := by
      rw [second, List.map_map]
      rfl
    obtain ⟨rest, rfl⟩ := exists_terminals_of_numbers tokens
    exact ⟨rest, by rwa [Draft.Generates, List.map_append]⟩

end Grammar

namespace Numbered

variable {g : Numbered}

theorem Productive.exists_forest (productive : g.Productive) {symbols : NumberedSymbols}
    (ruled : ∀ a, .nonterminal a ∈ symbols → ∃ rhs, g.HasRule a rhs) : ∃ forest : Forest, forest.Of g symbols := by
  induction symbols with
  | nil => exact ⟨.nil, .nil⟩
  | cons symbol rest ih =>
    obtain ⟨forest, later⟩ := ih fun a member => ruled a (List.mem_cons_of_mem _ member)
    cases symbol with
    | terminal token => exact ⟨_, @Forest.Of.leaf g ⟨token, .none⟩ rest forest later⟩
    | nonterminal a =>
      obtain ⟨rhs, known⟩ := ruled a (List.mem_cons_self ..)
      obtain ⟨tree, root⟩ := productive a rhs known
      exact ⟨tree.append forest, root.append later⟩

def awaited (g : Numbered) (item : Item) : NumberedSymbols :=
  (((g.rules[item.rule]?).map fun production => production.rhs.drop item.dot).getD []).filter (· ≠ .terminal Token.eos)

theorem awaited_of_next? {item : Item} {symbol : Symbol Nat Nat} (next : g.next? item = some symbol)
    (passed : symbol ≠ .terminal Token.eos) : g.awaited item = symbol :: g.awaited ⟨item.rule, item.dot + 1⟩ := by
  obtain ⟨production, known, found⟩ := next?_eq_some.mp next
  obtain ⟨inside, rfl⟩ := List.getElem?_eq_some_iff.mp found
  simp only [awaited, known, Option.map_some, Option.getD_some]
  rw [List.drop_eq_getElem_cons inside, List.filter_cons_of_pos (by simpa using passed)]

theorem awaited_start : g.augment.awaited g.augment.startItem = [.nonterminal g.start] := by
  have last : g.augment.rules[g.rules.size]? = some g.acceptance := augment_getElem?.mpr (Or.inr ⟨rfl, rfl⟩)
  simp [awaited, startItem, augment_size, last, acceptance]

namespace Lawful

variable (lawful : g.Lawful)

include lawful

theorem awaited_fresh {rule : Nat} {production : Rule} (known : g.rules[rule]? = some production) :
    g.augment.awaited ⟨rule, 0⟩ = production.rhs := by
  have old : g.augment.rules[rule]? = some production := augment_getElem?.mpr (Or.inl known)
  simp only [awaited, old, Option.map_some, Option.getD_some, List.drop_zero]
  apply List.filter_eq_self.mpr
  intro symbol member
  rw [decide_eq_true_eq]
  intro same
  have above := lawful.uncontrolled production (mem_ruleList_of_getElem? known) Token.eos (same ▸ member)
  simp [Token.controls, Token.eos] at above

theorem ruled_of_awaited {item : Item} {a : Nat} (member : .nonterminal a ∈ g.augment.awaited item) :
    ∃ rhs, g.HasRule a rhs := by
  have behind := List.mem_of_mem_filter member
  cases known : g.augment.rules[item.rule]? with
  | none => simp [known] at behind
  | some production =>
    simp only [known, Option.map_some, Option.getD_some] at behind
    have used := List.mem_of_mem_drop behind
    rcases augment_getElem?.mp known with old | ⟨_, rfl⟩
    · obtain ⟨other, inside, rfl⟩ := lawful.defined.ruled production (mem_ruleList_of_getElem? old) a used
      exact ⟨_, hasRule_iff.mpr inside⟩
    · obtain rfl : a = g.start := by simpa [acceptance] using used
      exact lawful.start

end Lawful

/-- A forest can be continued by any trees of some symbols to a tree of the start symbol, in whose listing the
forest and these trees come first. -/
def Continues (g : Numbered) (forest : Forest) (symbols : NumberedSymbols) : Prop :=
  ∃ after : List Leaf, ∀ next : Forest, next.Of g symbols → ∃ whole : Forest, whole.Of g [.nonterminal g.start] ∧
    whole.leaves = forest.leaves ++ next.leaves ++ after ∧
    forest.listing .bottomUp ++ next.listing .bottomUp <+: whole.listing .bottomUp

namespace Continues

variable {forest : Forest} {symbols : NumberedSymbols}

private theorem start (g : Numbered) : g.Continues .nil [.nonterminal g.start] :=
  ⟨[], fun next root => ⟨next, root, by simp [Forest.leaves], List.prefix_rfl⟩⟩

private theorem pass {symbol : Symbol Nat Nat} {tree : Forest} (continues : g.Continues forest (symbol :: symbols))
    (root : tree.Of g [symbol]) : g.Continues (forest.append tree) symbols := by
  obtain ⟨after, fills⟩ := continues
  refine ⟨after, fun next roots => ?_⟩
  obtain ⟨whole, top, leaves, listed⟩ := fills (tree.append next) (root.append roots)
  refine ⟨whole, top, ?_, ?_⟩
  · simpa using leaves
  · simpa using listed

private theorem predict {rule : Nat} {production : Rule} {others : Forest}
    (continues : g.Continues forest (.nonterminal production.lhs :: symbols))
    (known : g.rules[rule]? = some production) (later : others.Of g symbols) : g.Continues forest production.rhs := by
  obtain ⟨after, fills⟩ := continues
  refine ⟨others.leaves ++ after, fun next below => ?_⟩
  obtain ⟨whole, top, leaves, listed⟩ := fills (.node rule next others) (.node known below later)
  refine ⟨whole, top, ?_, ?_⟩
  · simpa [Forest.leaves] using leaves
  · refine List.IsPrefix.trans ⟨.reduce rule :: others.listing .bottomUp, ?_⟩ listed
    simp [Forest.listing]

end Continues

/-- If the items of a kernel continue a forest, so do those of its closure. -/
private theorem InClosure.continues (lawful : g.Lawful) (productive : g.Productive) {kernel : Set Item} {forest : Forest}
    (all : ∀ item ∈ kernel, g.Continues forest (g.augment.awaited item)) {item : Item}
    (member : g.augment.InClosure kernel item) : g.Continues forest (g.augment.awaited item) := by
  induction member with
  | kernel member => exact all _ member
  | predicted _ next known ih =>
    rcases augment_getElem?.mp known with old | ⟨_, rfl⟩
    · rw [awaited_of_next? next (by simp)] at ih
      obtain ⟨others, later⟩ := productive.exists_forest fun a member => lawful.ruled_of_awaited member
      rw [lawful.awaited_fresh old]
      exact ih.predict old later
    · exact absurd next lawful.next?_ne_acceptance

end Numbered

namespace Automaton

variable {a : Automaton} {g : Numbered} {stack : List Nat} {symbols : NumberedSymbols} {c : Config} {leaves : List Leaf}

/-- Every item of the current state continues what lies on the stack. -/
private theorem Stacked.continues (stacked : a.Stacked g stack symbols) (table : a.Tabulates g) (lawful : g.Lawful)
    (productive : g.Productive) {forest : Forest} (roots : forest.Of g symbols.reverse) {item : Item}
    (member : item ∈ a.items (stack.headD 0)) : g.Continues forest (g.augment.awaited item) := by
  induction stacked generalizing forest item with
  | start =>
    rw [List.headD_cons, table.initial] at member
    cases roots
    refine Numbered.InClosure.continues lawful productive ?_ member
    intro item first
    rw [Set.mem_singleton_iff.mp first, Numbered.awaited_start]
    exact .start g
  | @push state next below symbol symbols before _ expects leads ih =>
    rw [List.headD_cons, leads] at member
    rw [List.reverse_cons] at roots
    obtain ⟨earlier, tree, rfl, front, root⟩ := roots.split
    refine Numbered.InClosure.continues lawful productive ?_ member
    intro item advanced
    obtain ⟨source, inside, next, rfl⟩ := advanced
    have continues := ih front inside
    rw [Numbered.awaited_of_next? next expects.1] at continues
    exact continues.pass root

private theorem Stacked.exists_item (stacked : a.Stacked g stack symbols) (table : a.Tabulates g) :
    ∃ item, item ∈ a.items (stack.headD 0) := by
  cases stacked with
  | start =>
    refine ⟨g.augment.startItem, ?_⟩
    rw [List.headD_cons, table.initial]
    exact .kernel rfl
  | push _ _ expects leads =>
    obtain ⟨rule, dot, member⟩ := expects.exists_dot
    exact ⟨_, leads ▸ member⟩

/-- What a machine has done is the beginning of a tree, because something can be found for all that is awaited. -/
theorem Parsed.exists_tree (parsed : a.Parsed g leaves c) (table : a.Tabulates g) (lawful : g.Lawful)
    (productive : g.Productive) : ∃ (seen after : List Leaf) (tree : Forest), leaves = seen ++ c.rest ∧
      tree.Of g [.nonterminal g.start] ∧ tree.leaves = seen ++ after ∧ c.trace.reverse <+: tree.listing .bottomUp := by
  obtain ⟨symbols, forest, stacked, roots, rfl, listed⟩ := parsed
  obtain ⟨item, member⟩ := stacked.exists_item table
  obtain ⟨after, fills⟩ := stacked.continues table lawful productive roots member
  obtain ⟨next, awaits⟩ := productive.exists_forest fun a member => lawful.ruled_of_awaited member
  obtain ⟨tree, root, whole, begins⟩ := fills next awaits
  refine ⟨forest.leaves, next.leaves ++ after, tree, rfl, root, by simpa using whole, ?_⟩
  rw [listed]
  exact (List.prefix_append ..).trans begins

end Automaton

end CommandLang
