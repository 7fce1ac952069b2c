import CommandLang.Proofs.Construction

/-! The stack of a machine. Its states are the ones behind the symbols seen so far, so an item in the current
state tells what was seen last, and the same rule has stood with the dot in front where its first
symbol was about to be seen. -/

namespace CommandLang

/-- The states behind some symbols, both with the latest first. -/
inductive Automaton.Stacked (a : Automaton) (g : Numbered) : List Nat → NumberedSymbols → Prop where
  | start : Stacked a g [0] []
  | push {state next : Nat} {below : List Nat} {symbol : Symbol Nat Nat} {symbols : NumberedSymbols}
      (before : Stacked a g (state :: below) symbols) (inside : next < a.stateCount)
      (expects : g.augment.Expects (a.items state) symbol)
      (leads : a.items next = g.augment.goto (a.items state) symbol) :
      Stacked a g (next :: state :: below) (symbol :: symbols)

namespace Numbered

variable {g : Numbered} {items : Set Item} {item : Item}

theorem dot_eq_zero_of_start (member : item ∈ g.closure { g.startItem }) : item.dot = 0 := by
  cases member with
  | kernel member =>
    obtain rfl : item = g.startItem := member
    rfl
  | predicted => rfl

theorem mem_of_mem_goto {symbol : Symbol Nat Nat} {rule dot : Nat} (member : ⟨rule, dot + 1⟩ ∈ g.goto items symbol) :
    ⟨rule, dot⟩ ∈ items ∧ g.next? ⟨rule, dot⟩ = some symbol := by
  cases member with
  | kernel member =>
    obtain ⟨⟨other, place⟩, inside, next, same⟩ := member
    obtain ⟨rfl, rfl⟩ : rule = other ∧ dot = place := by simpa using same
    exact ⟨inside, next⟩

theorem Expects.exists_dot {symbol : Symbol Nat Nat} (expects : g.Expects items symbol) :
    ∃ rule dot, ⟨rule, dot + 1⟩ ∈ g.goto items symbol := by
  obtain ⟨_, item, member, next⟩ := expects
  exact ⟨item.rule, item.dot, .kernel ⟨item, member, next, rfl⟩⟩

theorem expects_of_mem (canonical : g.augment.Canonical items) {rule : Nat} {production : Rule} (member : ⟨rule, 0⟩ ∈ items)
    (known : g.rules[rule]? = some production) : g.augment.Expects items (.nonterminal production.lhs) := by
  have old : g.augment.rules[rule]? = some production := augment_getElem?.mpr (Or.inl known)
  have predicted : ∀ {kernel : Set Item}, ⟨rule, 0⟩ ∉ kernel → ⟨rule, 0⟩ ∈ g.augment.closure kernel →
      g.augment.Expects (g.augment.closure kernel) (.nonterminal production.lhs) := by
    intro kernel fresh member
    cases member with
    | kernel member => exact absurd member fresh
    | predicted before next ruled =>
      obtain rfl := Option.some.inj (old.symm.trans ruled)
      exact ⟨by simp, _, before, next⟩
  cases canonical with
  | start =>
    refine predicted ?_ member
    intro same
    obtain rfl : rule = g.rules.size := (Item.mk.inj same).1.trans augment_size
    exact Nat.lt_irrefl _ (Array.getElem?_eq_some_iff.mp known).1
  | goto before _ =>
    refine predicted ?_ member
    rintro ⟨_, _, _, same⟩
    cases same

theorem Lawful.start_of_mem (lawful : g.Lawful) (canonical : g.augment.Canonical items)
    (member : ⟨g.rules.size, 0⟩ ∈ items) : items = g.augment.closure { g.augment.startItem } := by
  cases canonical with
  | start => rfl
  | goto before _ =>
    cases member with
    | kernel member =>
      obtain ⟨_, _, _, same⟩ := member
      exact absurd (congrArg Item.dot same) (Nat.succ_ne_zero _).symm
    | predicted _ next known =>
      rcases augment_getElem?.mp known with old | ⟨_, rfl⟩
      · exact absurd (Array.getElem?_eq_some_iff.mp old).1 (Nat.lt_irrefl _)
      · exact absurd next lawful.next?_ne_acceptance

end Numbered

namespace Automaton.Tabulates

variable {a : Automaton} {g : Numbered} (table : a.Tabulates g) {stack : List Nat} {symbols : NumberedSymbols}

include table

theorem canonical {state : Nat} (inside : state < a.stateCount) : g.augment.Canonical (a.items state) :=
  table.states.mapsTo inside

theorem zero_lt : 0 < a.stateCount := by
  obtain ⟨state, inside, _⟩ := table.states.surjOn Numbered.Canonical.start
  exact Nat.zero_lt_of_lt inside

theorem exists_goto {state : Nat} (inside : state < a.stateCount) {symbol : Symbol Nat Nat}
    (expects : g.augment.Expects (a.items state) symbol) :
    ∃ next, next < a.stateCount ∧ a.items next = g.augment.goto (a.items state) symbol := by
  obtain ⟨next, outside, same⟩ := table.states.surjOn (.goto (table.canonical inside) expects)
  exact ⟨next, outside, same⟩

end Automaton.Tabulates

namespace Automaton.Stacked

variable {a : Automaton} {g : Numbered} {stack : List Nat} {symbols : NumberedSymbols}

theorem length_eq (stacked : a.Stacked g stack symbols) : stack.length = symbols.length + 1 := by
  induction stacked with
  | start => rfl
  | push _ _ _ _ ih => simpa using ih

theorem inside (stacked : a.Stacked g stack symbols) (table : a.Tabulates g) : ∀ state ∈ stack, state < a.stateCount := by
  induction stacked with
  | start => simpa using table.zero_lt
  | push _ inside _ _ ih =>
    intro state member
    rcases List.mem_cons.mp member with rfl | later
    · exact inside
    · exact ih state later

theorem head_lt (stacked : a.Stacked g stack symbols) (table : a.Tabulates g) : stack.headD 0 < a.stateCount := by
  cases stacked with
  | start => exact table.zero_lt
  | push _ inside _ _ => exact inside

theorem push_head (stacked : a.Stacked g stack symbols) {next : Nat} {symbol : Symbol Nat Nat}
    (inside : next < a.stateCount) (expects : g.augment.Expects (a.items (stack.headD 0)) symbol)
    (leads : a.items next = g.augment.goto (a.items (stack.headD 0)) symbol) :
    a.Stacked g (next :: stack) (symbol :: symbols) := by
  obtain ⟨state, below, rfl⟩ : ∃ state below, stack = state :: below := by
    cases stacked <;> exact ⟨_, _, rfl⟩
  exact .push stacked inside expects leads

theorem seen (stacked : a.Stacked g stack symbols) (table : a.Tabulates g) {rule dot : Nat}
    (member : ⟨rule, dot⟩ ∈ a.items (stack.headD 0)) :
    ∃ production rest, g.augment.rules[rule]? = some production ∧ symbols = (production.rhs.take dot).reverse ++ rest ∧
      a.Stacked g (stack.drop dot) rest ∧ ⟨rule, 0⟩ ∈ a.items ((stack.drop dot).headD 0) := by
  induction dot generalizing stack symbols with
  | zero =>
    have ruled : 0 < g.augment.rules.size := by simp [Numbered.augment_rules]
    obtain ⟨production, known, _⟩ := (table.canonical (stacked.head_lt table)).proper ruled _ member
    exact ⟨production, symbols, known, by simp, stacked, member⟩
  | succ dot ih =>
    cases stacked with
    | start =>
      rw [List.headD_cons, table.initial] at member
      exact absurd (Numbered.dot_eq_zero_of_start member) (by simp)
    | push before _ expects leads =>
      rw [List.headD_cons, leads] at member
      obtain ⟨earlier, next⟩ := Numbered.mem_of_mem_goto member
      obtain ⟨production, rest, known, rfl, stacked, front⟩ := ih before earlier
      obtain ⟨other, ruled, found⟩ := Numbered.next?_eq_some.mp next
      obtain rfl := Option.some.inj (known.symm.trans ruled)
      refine ⟨production, rest, known, ?_, stacked, front⟩
      rw [List.take_add_one, found]
      simp

theorem eq_start (stacked : a.Stacked g stack symbols) (table : a.Tabulates g) (zero : stack.headD 0 = 0) :
    stack = [0] ∧ symbols = [] := by
  cases stacked with
  | start => exact ⟨rfl, rfl⟩
  | @push state next below symbol symbols _ _ expects leads =>
    obtain rfl : next = 0 := zero
    obtain ⟨rule, dot, member⟩ := expects.exists_dot
    rw [← leads, table.initial] at member
    exact absurd (Numbered.dot_eq_zero_of_start member) (by simp)

end Automaton.Stacked

end CommandLang
