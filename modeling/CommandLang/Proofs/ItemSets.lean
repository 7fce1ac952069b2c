import CommandLang.Automaton.Item
import CommandLang.Proofs.Follow
import Mathlib.Data.Set.Basic

/-! Item sets. A closure is the least set that holds its kernel and every rule that can come next, and a
set leads to another behind each symbol. The canonical sets are those that are reached from the
rule of the added start symbol. -/

namespace CommandLang

namespace Numbered

variable (g : Numbered)

def next? (item : Item) : Option (Symbol Nat Nat) := (g.rules[item.rule]?).bind (·.rhs[item.dot]?)

inductive InClosure (kernel : Set Item) : Item → Prop where
  | kernel {item : Item} (member : item ∈ kernel) : InClosure kernel item
  | predicted {item : Item} {rule : Nat} {production : Rule} (member : InClosure kernel item)
      (next : g.next? item = some (.nonterminal production.lhs)) (known : g.rules[rule]? = some production) :
      InClosure kernel ⟨rule, 0⟩

def closure (kernel : Set Item) : Set Item := { item | g.InClosure kernel item }

def advanced (items : Set Item) (symbol : Symbol Nat Nat) : Set Item :=
  { item | ∃ before ∈ items, g.next? before = some symbol ∧ item = ⟨before.rule, before.dot + 1⟩ }

def goto (items : Set Item) (symbol : Symbol Nat Nat) : Set Item := g.closure (g.advanced items symbol)

/-- Whether a symbol is passed: it stands behind a dot. The end of the input is looked at and never passed. -/
def Expects (items : Set Item) (symbol : Symbol Nat Nat) : Prop :=
  symbol ≠ .terminal Token.eos ∧ ∃ item ∈ items, g.next? item = some symbol

/-- The last rule with the dot in front. In an augmented grammar it is the rule of the added start symbol. -/
def startItem : Item := ⟨g.rules.size - 1, 0⟩

/-- The item sets that are reached from the start. -/
inductive Canonical : Set Item → Prop where
  | start : Canonical (g.closure { g.startItem })
  | goto {items : Set Item} {symbol : Symbol Nat Nat} (before : Canonical items)
      (expects : g.Expects items symbol) : Canonical (g.goto items symbol)

variable {g}

def Proper (g : Numbered) (item : Item) : Prop :=
  ∃ production, g.rules[item.rule]? = some production ∧ item.dot ≤ production.rhs.length

theorem next?_eq_some {item : Item} {symbol : Symbol Nat Nat} :
    g.next? item = some symbol ↔
      ∃ production, g.rules[item.rule]? = some production ∧ production.rhs[item.dot]? = some symbol := by
  simp [next?, Option.bind_eq_some_iff]

theorem mem_ruleList_of_getElem? {rule : Nat} {production : Rule} (known : g.rules[rule]? = some production) :
    production ∈ g.ruleList :=
  mem_ruleList.mpr (Array.mem_of_getElem? known)

theorem InClosure.proper {kernel : Set Item} (all : ∀ item ∈ kernel, g.Proper item) {item : Item}
    (member : g.InClosure kernel item) : g.Proper item := by
  cases member with
  | kernel member => exact all item member
  | predicted _ _ known => exact ⟨_, known, Nat.zero_le _⟩

theorem Canonical.proper (ruled : 0 < g.rules.size) {items : Set Item} (canonical : g.Canonical items) :
    ∀ item ∈ items, g.Proper item := by
  induction canonical with
  | start =>
    intro item member
    refine InClosure.proper ?_ member
    rintro _ rfl
    exact ⟨_, Array.getElem?_eq_getElem (Nat.sub_lt ruled Nat.one_pos), Nat.zero_le _⟩
  | goto =>
    intro item member
    refine InClosure.proper ?_ member
    rintro _ ⟨before, _, next, rfl⟩
    obtain ⟨production, known, found⟩ := next?_eq_some.mp next
    exact ⟨production, known, (List.getElem?_eq_some_iff.mp found).1⟩

theorem Canonical.predicted {items : Set Item} (canonical : g.Canonical items) {item : Item} {rule : Nat}
    {production : Rule} (member : item ∈ items) (next : g.next? item = some (.nonterminal production.lhs))
    (known : g.rules[rule]? = some production) : ⟨rule, 0⟩ ∈ items := by
  cases canonical with
  | start => exact .predicted member next known
  | goto => exact .predicted member next known

theorem Defined.nonterminal_lt (defined : g.Defined) {item : Item} {a : Nat}
    (next : g.next? item = some (.nonterminal a)) : a < g.names.size := by
  obtain ⟨production, known, found⟩ := next?_eq_some.mp next
  exact defined.lt_of_mem (mem_ruleList_of_getElem? known) (List.mem_of_getElem? found)

theorem rhs_lt_width {rule : Nat} {production : Rule} (known : g.rules[rule]? = some production) :
    production.rhs.length < g.itemWidth := by
  have member := List.mem_map_of_mem (f := fun rule : Rule => rule.rhs.length) (mem_ruleList_of_getElem? known)
  have greatest : ∀ (lengths : List Nat) (start : Nat),
      start ≤ lengths.foldl max start ∧ ∀ length ∈ lengths, length ≤ lengths.foldl max start := by
    intro lengths
    induction lengths with
    | nil => simp
    | cons first rest ih =>
      intro start
      obtain ⟨above, all⟩ := ih (max start first)
      refine ⟨Nat.le_trans (Nat.le_max_left ..) above, ?_⟩
      intro length inside
      rcases List.mem_cons.mp inside with rfl | later
      · exact Nat.le_trans (Nat.le_max_right ..) above
      · exact all length later
  exact Nat.lt_succ_of_le ((greatest _ 0).2 _ member)

theorem dot_lt_width {item : Item} {symbol : Symbol Nat Nat} (next : g.next? item = some symbol) :
    item.dot + 1 < g.itemWidth := by
  obtain ⟨production, known, found⟩ := next?_eq_some.mp next
  have inside := (List.getElem?_eq_some_iff.mp found).1
  have bound := rhs_lt_width known
  omega

theorem itemWidth_pos : 0 < g.itemWidth := Nat.succ_pos _

end Numbered

end CommandLang
