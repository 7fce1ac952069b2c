import CommandLang.Proofs.Augmented
import CommandLang.Proofs.ItemSets
import CommandLang.Proofs.Stack

/-! What stands before a nonterminal. All items of a state agree on the symbols that were seen, and behind the symbols
that an item leaves over, its nonterminal comes up. -/

namespace CommandLang

/-- A nonterminal comes up behind the symbols that were seen, the latest first: behind the first symbols of a rule
whose own nonterminal came up behind the others. -/
inductive Led {τ ν : Type} (rule : ν → List (Symbol τ ν) → Prop) (top : ν) : ν → List (Symbol τ ν) → Prop where
  | top : Led rule top top []
  | used {lhs a : ν} {seen front back : List (Symbol τ ν)} (outer : Led rule top lhs seen)
      (known : rule lhs (front ++ .nonterminal a :: back)) : Led rule top a (front.reverse ++ seen)

theorem Led.mono {τ ν : Type} {rule other : ν → List (Symbol τ ν) → Prop} {top a : ν} {seen : List (Symbol τ ν)}
    (rules : ∀ lhs rhs, rule lhs rhs → other lhs rhs) (led : Led rule top a seen) : Led other top a seen := by
  induction led with
  | top => exact .top
  | used _ known ih => exact .used ih (rules _ _ known)

namespace Numbered

variable {g : Numbered} {items : Set Item} {seen : NumberedSymbols}

abbrev Leads (g : Numbered) : Nat → NumberedSymbols → Prop := Led g.augment.HasRule g.acceptance.lhs

/-- What stands before the dot was seen last, and the nonterminal of the rule comes up behind the rest. -/
def Behind (g : Numbered) (seen : NumberedSymbols) (item : Item) : Prop :=
  ∃ production rest, g.augment.rules[item.rule]? = some production ∧
    seen = (production.rhs.take item.dot).reverse ++ rest ∧ g.Leads production.lhs rest

private theorem behind_of_closure {kernel : Set Item} (all : ∀ item ∈ kernel, g.Behind seen item) {item : Item}
    (member : g.augment.InClosure kernel item) : g.Behind seen item := by
  induction member with
  | kernel member => exact all _ member
  | @predicted before rule production _ next known ih =>
    obtain ⟨outer, rest, ruled, rfl, leads⟩ := ih
    obtain ⟨other, same, found⟩ := next?_eq_some.mp next
    obtain rfl := Option.some.inj (ruled.symm.trans same)
    obtain ⟨inside, found⟩ := List.getElem?_eq_some_iff.mp found
    have whole : outer.rhs = outer.rhs.take before.dot ++ .nonterminal production.lhs :: outer.rhs.drop (before.dot + 1) := by
      rw [← found, List.getElem_cons_drop, List.take_append_drop]
    have used : g.augment.HasRule outer.lhs (outer.rhs.take before.dot ++
        .nonterminal production.lhs :: outer.rhs.drop (before.dot + 1)) := whole ▸ Array.mem_of_getElem? ruled
    exact ⟨production, _, known, rfl, .used leads used⟩

/-- All items of a state agree on the symbols that were seen. -/
theorem Canonical.exists_seen (canonical : g.augment.Canonical items) : ∃ seen, ∀ item ∈ items, g.Behind seen item := by
  induction canonical with
  | start =>
    refine ⟨[], fun item member => behind_of_closure ?_ member⟩
    intro item first
    obtain rfl : item = g.augment.startItem := first
    have last : g.augment.rules[g.augment.startItem.rule]? = some g.acceptance :=
      augment_getElem?.mpr (Or.inr ⟨augment_size, rfl⟩)
    exact ⟨g.acceptance, [], last, rfl, .top⟩
  | @goto items symbol _ _ ih =>
    obtain ⟨seen, behind⟩ := ih
    refine ⟨symbol :: seen, fun item member => behind_of_closure ?_ member⟩
    intro item advanced
    obtain ⟨before, inside, next, rfl⟩ := advanced
    obtain ⟨production, rest, known, rfl, leads⟩ := behind before inside
    obtain ⟨other, same, found⟩ := next?_eq_some.mp next
    obtain rfl := Option.some.inj (known.symm.trans same)
    refine ⟨production, rest, known, ?_, leads⟩
    simp [List.take_add_one, found]

end Numbered

namespace Grammar

variable {g : Grammar}

theorem idxOf_ne_acceptance {name : String} (ruled : name ∈ g.rules.keys) :
    g.rules.keys.idxOf name ≠ g.number.acceptance.lhs := by
  have inside := List.idxOf_lt_length_of_mem ruled
  simp only [Numbered.acceptance, number, List.size_toArray]
  exact Nat.ne_of_lt inside

def Knows (g : Grammar) : Symbol Terminal String → Prop
  | .terminal terminal => terminal ∈ g.terminals
  | .nonterminal name => name ∈ g.rules.keys

theorem knows_of_mem {lhs : String} {rhs : Rhs} (known : g.HasRule lhs rhs) {symbol : Symbol Terminal String}
    (used : symbol ∈ rhs) : g.Knows symbol := by
  cases symbol with
  | terminal => exact g.mem_terminals.mpr (Or.inl ⟨lhs, rhs, known, used⟩)
  | nonterminal =>
    obtain ⟨_, ruled⟩ := g.ruled known used
    exact ruled.mem_keys

theorem symbolNumber_inj {left right : Symbol Terminal String} (knows : g.Knows left)
    (same : g.symbolNumber left = g.symbolNumber right) : left = right := by
  cases left with
  | terminal => exact (symbolNumber_eq_terminal knows same.symm).symm
  | nonterminal name =>
    cases right with
    | terminal => cases same
    | nonterminal => rw [(List.idxOf_inj knows).mp (Symbol.nonterminal.inj same)]

theorem map_symbolNumber_inj {left right : Rhs} (knows : ∀ symbol ∈ left, g.Knows symbol)
    (same : left.map g.symbolNumber = right.map g.symbolNumber) : left = right := by
  induction left generalizing right with
  | nil => exact (List.map_eq_nil_iff.mp same.symm).symm
  | cons symbol left ih =>
    rw [List.forall_mem_cons] at knows
    obtain ⟨other, more, rfl, first, rest⟩ := List.map_eq_cons_iff.mp same.symm
    rw [symbolNumber_inj knows.1 first.symm, ih knows.2 rest.symm]

theorem knows_of_led {name : String} {seen : Rhs} (led : Led g.HasRule g.start name seen) : ∀ symbol ∈ seen, g.Knows symbol := by
  induction led with
  | top => simp
  | used _ known ih =>
    rw [List.forall_mem_append]
    exact ⟨fun symbol member => knows_of_mem known (List.mem_append_left _ (List.mem_reverse.mp member)), ih⟩

/-- Numbers are only names: nonterminals come up behind the numbers of what they come up behind. -/
theorem exists_led {a : Nat} {seen : NumberedSymbols} (leads : g.number.Leads a seen) (other : a ≠ g.number.acceptance.lhs) :
    ∃ name source, a = g.rules.keys.idxOf name ∧ name ∈ g.rules.keys ∧ seen = source.map g.symbolNumber ∧
      Led g.HasRule g.start name source := by
  induction leads with
  | top => exact absurd rfl other
  | @used lhs a seen front back outer known ih =>
    rcases Numbered.augment_hasRule.mp known with old | ⟨last, whole⟩
    · obtain ⟨name, body, ruled, rfl, same⟩ := number_hasRule.mp old
      obtain ⟨outer, source, equal, _, rfl, led⟩ := ih (idxOf_ne_acceptance ruled.mem_keys)
      obtain rfl := (List.idxOf_inj ruled.mem_keys).mp equal
      obtain ⟨left, rest, rfl, rfl, tail⟩ := List.map_eq_append_iff.mp same.symm
      obtain ⟨symbol, right, rfl, single, rfl⟩ := List.map_eq_cons_iff.mp tail
      cases symbol with
      | terminal => cases single
      | nonterminal inner =>
        obtain ⟨rhs, used⟩ := g.ruled ruled (List.mem_append_right _ (List.mem_cons_self ..))
        exact ⟨inner, left.reverse ++ source, (Symbol.nonterminal.inj single).symm, used.mem_keys, by simp, .used led ruled⟩
    · -- The start symbol comes up first.
      obtain ⟨rhs, used⟩ := g.start_ruled
      cases front with
      | nil =>
        obtain ⟨first, _⟩ := List.cons.inj whole
        obtain rfl : a = g.number.start := Symbol.nonterminal.inj first
        cases outer with
        | top => exact ⟨g.start, [], rfl, used.mem_keys, rfl, .top⟩
        | used _ inner =>
          obtain rfl : lhs = g.number.acceptance.lhs := last
          exact absurd (List.mem_append_right _ (List.mem_cons_self ..)) (g.number_lawful.not_used inner)
      | cons first front =>
        simp [Numbered.acceptance, List.append_eq_cons_iff] at whole

end Grammar

end CommandLang
