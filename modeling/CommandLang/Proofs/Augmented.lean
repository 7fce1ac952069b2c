import CommandLang.Proofs.Blueprint
import CommandLang.Proofs.Numbering

/-! The augmented grammar. Its last rule is the only one with the end of the input in it, and the symbol
that this rule defines occurs nowhere, so nothing follows it. All other nonterminals keep their names, except one that has
the name of this symbol already. -/

namespace CommandLang

namespace Numbered

variable {g : Numbered}

/-- The rule of the added start symbol. -/
def acceptance (g : Numbered) : Rule := ⟨g.names.size, [.nonterminal g.start, .terminal Token.eos]⟩

theorem augment_rules : g.augment.rules = g.rules.push g.acceptance := rfl

theorem augment_size : g.augment.rules.size - 1 = g.rules.size := by
  simp [augment_rules]

theorem augment_getElem? {rule : Nat} {production : Rule} :
    g.augment.rules[rule]? = some production ↔
      g.rules[rule]? = some production ∨ (rule = g.rules.size ∧ production = g.acceptance) := by
  rw [augment_rules, Array.getElem?_push]
  split
  next last =>
    subst last
    simp [eq_comm]
  next other => simp [other]

theorem augment_hasRule {lhs : Nat} {rhs : NumberedSymbols} :
    g.augment.HasRule lhs rhs ↔ g.HasRule lhs rhs ∨ (lhs = g.names.size ∧ rhs = g.acceptance.rhs) := by
  simp [HasRule, augment_rules, acceptance]

theorem Lawful.start_lt (lawful : g.Lawful) : g.start < g.names.size := by
  obtain ⟨rhs, known⟩ := lawful.start
  exact lawful.defined.named _ (hasRule_iff.mp known)

theorem Lawful.augment_defined (lawful : g.Lawful) : g.augment.Defined where
  named := by
    rintro ⟨lhs, rhs⟩ member
    rcases augment_hasRule.mp (hasRule_iff.mpr member) with known | ⟨rfl, _⟩
    · have inside := lawful.defined.named _ (hasRule_iff.mp known)
      simp only [augment, Array.size_push]
      exact Nat.lt_succ_of_lt inside
    · simp [augment]
  ruled := by
    have keeps : ∀ {a rhs}, g.HasRule a rhs → ∃ other ∈ g.augment.ruleList, other.lhs = a := fun known =>
      ⟨_, hasRule_iff.mp (augment_hasRule.mpr (Or.inl known)), rfl⟩
    rintro ⟨lhs, rhs⟩ member a used
    rcases augment_hasRule.mp (hasRule_iff.mpr member) with known | ⟨_, rfl⟩
    · obtain ⟨other, inside, rfl⟩ := lawful.defined.ruled _ (hasRule_iff.mp known) a used
      exact keeps (hasRule_iff.mpr inside)
    · obtain ⟨rhs, ruled⟩ := lawful.start
      obtain rfl : a = g.start := by simpa [acceptance] using used
      exact keeps ruled

theorem Lawful.next?_eos (lawful : g.Lawful) {item : Item} :
    g.augment.next? item = some (.terminal Token.eos) ↔ item = ⟨g.rules.size, 1⟩ := by
  rw [next?_eq_some]
  constructor
  · rintro ⟨production, known, found⟩
    rcases augment_getElem?.mp known with old | ⟨last, rfl⟩
    · have above := lawful.uncontrolled production (mem_ruleList_of_getElem? old) _ (List.mem_of_getElem? found)
      simp [Token.controls, Token.eos] at above
    · have place : item.dot = 1 := by
        obtain ⟨rule, dot⟩ := item
        match dot with
        | 0 => simp [acceptance] at found
        | 1 => rfl
        | dot + 2 => simp [acceptance] at found
      cases item
      simp_all
  · rintro rfl
    exact ⟨g.acceptance, augment_getElem?.mpr (Or.inr ⟨rfl, rfl⟩), rfl⟩

theorem Lawful.not_hasRule_acceptance (lawful : g.Lawful) (lhs : Nat) : ¬ g.HasRule lhs g.acceptance.rhs := by
  intro known
  have above := lawful.uncontrolled _ (hasRule_iff.mp known) Token.eos (by simp [acceptance])
  exact absurd above (by decide)

theorem Lawful.not_used (lawful : g.Lawful) {lhs : Nat} {rhs : NumberedSymbols}
    (known : g.augment.HasRule lhs rhs) : .nonterminal g.acceptance.lhs ∉ rhs := by
  intro used
  rcases augment_hasRule.mp known with old | ⟨_, rfl⟩
  · exact Nat.lt_irrefl _ (lawful.defined.lt_of_mem (hasRule_iff.mp old) used)
  · have small := lawful.start_lt
    simp only [acceptance, List.mem_cons, Symbol.nonterminal.injEq, reduceCtorEq, List.not_mem_nil, or_false] at used
    omega

theorem Lawful.not_follows_acceptance (lawful : g.Lawful) (token : Nat) :
    ¬ g.augment.Follows g.acceptance.lhs token := by
  intro follows
  obtain ⟨lhs, rhs, known, used⟩ := follows.used
  exact lawful.not_used known used

theorem Lawful.getElem?_of_follows (lawful : g.Lawful) {rule token : Nat} {production : Rule}
    (known : g.augment.rules[rule]? = some production) (follows : g.augment.Follows production.lhs token) :
    g.rules[rule]? = some production := by
  rcases augment_getElem?.mp known with old | ⟨_, rfl⟩
  · exact old
  · exact absurd follows (lawful.not_follows_acceptance token)

theorem Lawful.ne_size_of_follows (lawful : g.Lawful) {rule token : Nat} {production : Rule}
    (known : g.augment.rules[rule]? = some production) (follows : g.augment.Follows production.lhs token) :
    rule ≠ g.rules.size :=
  Nat.ne_of_lt (Array.getElem?_eq_some_iff.mp (lawful.getElem?_of_follows known follows)).1

theorem Lawful.next?_ne_acceptance (lawful : g.Lawful) {item : Item} :
    g.augment.next? item ≠ some (.nonterminal g.acceptance.lhs) := by
  intro next
  obtain ⟨production, known, found⟩ := next?_eq_some.mp next
  exact lawful.not_used (Array.mem_of_getElem? known) (List.mem_of_getElem? found)

theorem keepsName_augment (distinct : g.names.toList.Nodup) {number : Nat} {name : String}
    (known : g.names[number]? = some name) : g.augment.keepsName number = true ↔ name ≠ acceptName := by
  obtain ⟨inside, rfl⟩ := Array.getElem?_eq_some_iff.mp known
  have inside : number < g.names.toList.length := inside
  have rest := List.drop_eq_getElem_cons inside
  have apart : g.names.toList[number] ∉ g.names.toList.drop (number + 1) :=
    (List.nodup_cons.mp (rest ▸ distinct.drop)).1
  simp only [Array.getElem_toList] at rest apart
  have later : g.augment.names.toList.drop number =
      g.names[number] :: (g.names.toList.drop (number + 1) ++ [acceptName]) := by
    rw [augment, Array.toList_push, List.drop_append_of_le_length (Nat.le_of_lt inside), rest, List.cons_append]
  rw [keepsName, later]
  simp [apart]

theorem keepsName_augment_size : g.augment.keepsName g.names.size = true := by
  simp [keepsName, augment]

end Numbered

namespace Grammar

/-- There are sets for the rules of all nonterminals, unless one of these has the name of the added start symbol. -/
theorem lookahead?_augment (g : Grammar) : g.number.augment.lookahead? =
    if g.hasRules Numbered.acceptName then none else some g.number.augment.lookahead := by
  have keeps : ∀ {name rhs}, g.HasRule name rhs →
      (g.number.augment.keepsName (g.rules.keys.idxOf name) = true ↔ name ≠ Numbered.acceptName) := fun known =>
    Numbered.keepsName_augment g.rules.nodup_keys (by simp [number, known.mem_keys])
  have kept : (g.number.augment.ruleList.all fun rule => g.number.augment.keepsName rule.lhs) = true ↔
      ¬ g.hasRules Numbered.acceptName = true := by
    rw [List.all_eq_true, Draft.hasRules_iff]
    constructor
    · rintro all ⟨rhs, known⟩
      have ruled := Numbered.augment_hasRule.mpr (Or.inl (number_hasRule.mpr ⟨_, _, known, rfl, rfl⟩))
      exact (keeps known).mp (all _ (Numbered.hasRule_iff.mp ruled)) rfl
    · rintro plain ⟨lhs, rhs⟩ member
      rcases Numbered.augment_hasRule.mp (Numbered.hasRule_iff.mpr member) with old | ⟨rfl, _⟩
      · obtain ⟨name, source, known, rfl, _⟩ := number_hasRule.mp old
        exact (keeps known).mpr fun same => plain ⟨source, same ▸ known⟩
      · exact Numbered.keepsName_augment_size
  rw [Numbered.lookahead?]
  by_cases taken : g.hasRules Numbered.acceptName = true
  · rw [if_pos taken, if_neg (fun all => kept.mp all taken)]
  · rw [if_neg taken, if_pos (kept.mpr taken)]

end Grammar

end CommandLang
