import CommandLang.Proofs.Construction

/-! What is known ahead of the construction of an automaton, for the augmented grammar. Nothing is asked of the rules:
there may be empty and circular ones, and nonterminals that are not reached or derive no sequence of tokens. -/

namespace CommandLang

/-- Membership in the sets is derivability. -/
structure Lookahead.Exact (ahead : Lookahead) (g : Numbered) : Prop where
  nullable : ∀ a, a ∈ ahead.nullable ↔ Derives g.HasRule [.nonterminal a] []
  first : ∀ a token : Nat, token ∈ (ahead.first[a]?).getD ∅ ↔ ∃ rest, Derives g.HasRule [.nonterminal a] (.terminal token :: rest)
  follow : ∀ a token : Nat, token ∈ (ahead.follow[a]?).getD ∅ ↔ g.Follows a token

/-- Passes over the rules end, each loop with the sets that it is for. -/
structure Lookahead.Settled (ahead : Lookahead) (g : Numbered) : Prop where
  nullable : ∃ verdicts, Settles (g.nullableStep g.ruleSets) ∅ verdicts ∧
    ∀ a, a ∈ ahead.nullable ↔ a < g.names.size ∧ verdicts.ofRules ((g.ruleSets[a]?).getD ∅) = some true
  first : Settles (g.firstStep ahead.nullable) (Array.replicate g.names.size ∅) ahead.first
  follow : Settles (g.followStep ahead.nullable ahead.first) (Array.replicate g.names.size ∅) ahead.follow

namespace Numbered

variable {g : Numbered}

theorem Defined.lookahead_settled (defined : g.Defined) : g.lookahead.Settled g where
  nullable := ⟨g.verdicts, (verdicts_settle defined).1, fun a => by simp [lookahead, nullable]⟩
  first := firstSets_settle defined
  follow := followSets_settle defined

theorem Defined.lookahead_exact (defined : g.Defined) : g.lookahead.Exact g where
  nullable _ := mem_nullable defined
  first _ _ := mem_first defined
  follow _ _ := mem_follow defined

theorem follows_start : g.augment.Follows g.start Token.eos :=
  ⟨g.acceptance.lhs, [], [], Derives.of_rule (augment_hasRule.mpr (Or.inr ⟨rfl, rfl⟩))⟩

end Numbered

namespace Grammar

/-- The passes over the rules end before an automaton is built, and their sets are exact, unless the name of the added start
symbol is taken. -/
theorem lookahead_augment (g : Grammar) :
    (∃ ahead, g.number.augment.lookahead? = some ahead ∧ ahead.Settled g.number.augment ∧ ahead.Exact g.number.augment ∧
      Token.eos ∈ (ahead.follow[g.number.start]?).getD ∅) ↔ g.hasRules Numbered.acceptName = false := by
  have defined := g.number_lawful.augment_defined
  rw [lookahead?_augment]
  constructor
  · rintro ⟨ahead, found, _⟩
    exact Bool.eq_false_iff.mpr (Option.ite_none_left_eq_some.mp found).1
  · intro plain
    exact ⟨_, if_neg (Bool.eq_false_iff.mp plain), defined.lookahead_settled, defined.lookahead_exact,
      (Numbered.mem_follow defined).mpr Numbered.follows_start⟩

/-- A grammar with a nonterminal that has the name of the added start symbol. -/
def namesake : Grammar where
  toDraft := (Draft.empty "S").addRules [("S", [.nonterminal "$accept"]), ("$accept", [.word "a"])]
  faultless := by decide +kernel

/-- This nonterminal derives a word, but no sets are found, and the construction breaks off. -/
theorem namesake_breaks_off : Derives namesake.number.augment.HasRule [.nonterminal 1] [.terminal 3] ∧
    namesake.number.augment.lookahead? = none ∧ namesake.automaton = .error .nameTaken := by
  have ruled : ⟨1, [.terminal 3]⟩ ∈ namesake.number.augment.rules := by decide +kernel
  have taken : namesake.hasRules Numbered.acceptName = true := by decide +kernel
  exact ⟨.of_rule ruled, by rw [lookahead?_augment, if_pos taken], automaton_of_taken taken⟩

end Grammar

end CommandLang
