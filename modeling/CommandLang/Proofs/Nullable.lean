import CommandLang.Automaton.Lookahead
import CommandLang.Proofs.Derivation
import CommandLang.Proofs.Saturation

/-! The nullable nonterminals are those that derive the empty sequence. A rule is decided once, and
rightly: as one that derives the empty sequence, or as one that never does. When a pass decides
nothing, no rule that is left derives the empty sequence. -/

namespace CommandLang

/-- Every nonterminal that is used has a rule, and the table of names covers all of them. -/
structure Numbered.Defined (g : Numbered) : Prop where
  named : ∀ rule ∈ g.ruleList, rule.lhs < g.names.size
  ruled : ∀ rule ∈ g.ruleList, ∀ a, .nonterminal a ∈ rule.rhs → ∃ other ∈ g.ruleList, other.lhs = a

theorem Verdicts.judge_eq_or (known : Verdicts) (rulesOf : Array IdSet) (rule : NumberedSymbols × Nat) :
    (known.judge rulesOf rule = known ∧ (rule.2 ∈ known.decided ∨ known.ofSymbols rulesOf rule.1 = none)) ∨
    (rule.2 ∉ known.decided ∧ ∃ erased, known.ofSymbols rulesOf rule.1 = some erased ∧
      known.judge rulesOf rule = known.record rule.2 erased) := by
  rw [judge]
  split
  next old => exact Or.inl ⟨rfl, Or.inl old⟩
  next new =>
    split
    next erased verdict => exact Or.inr ⟨new, erased, verdict, rfl⟩
    next none => exact Or.inl ⟨rfl, Or.inr none⟩

namespace Numbered

variable {g : Numbered}

theorem mem_ruleList {rule : Rule} : rule ∈ g.ruleList ↔ rule ∈ g.rules := Array.mem_toList_iff

theorem hasRule_iff {lhs : Nat} {rhs : NumberedSymbols} : g.HasRule lhs rhs ↔ ⟨lhs, rhs⟩ ∈ g.ruleList :=
  mem_ruleList.symm

theorem length_ruleList : g.ruleList.length = g.rules.size := Array.length_toList

theorem Defined.lt_of_mem (defined : g.Defined) {rule : Rule} (member : rule ∈ g.ruleList) {a : Nat}
    (used : .nonterminal a ∈ rule.rhs) : a < g.names.size := by
  obtain ⟨other, inside, rfl⟩ := defined.ruled rule member a used
  exact defined.named other inside

theorem mem_rulesOf {a rule : Nat} :
    rule ∈ g.rulesOf a ↔ ∃ production, g.rules[rule]? = some production ∧ production.lhs = a := by
  simp only [rulesOf, List.mem_map, List.mem_filter, Prod.exists, List.mem_zipIdx_iff_getElem?, ruleList,
    Array.getElem?_toList, decide_eq_true_eq, exists_eq_right]

theorem mem_ruleSets (defined : g.Defined) {a rule : Nat} :
    rule ∈ (g.ruleSets[a]?).getD ∅ ↔ ∃ production, g.rules[rule]? = some production ∧ production.lhs = a := by
  have within : ∀ a rule, rule ∈ IdSet.ofList (g.rulesOf a) → a < g.names.size := by
    intro a rule member
    obtain ⟨production, known, rfl⟩ := mem_rulesOf.mp (IdSet.mem_ofList.mp member)
    exact defined.named _ (mem_ruleList.mpr (Array.mem_of_getElem? known))
  rw [ruleSets, IdSet.getD_table within, IdSet.mem_ofList, mem_rulesOf]

/-- Verdicts are right. -/
structure Judges (g : Numbered) (known : Verdicts) : Prop where
  decided : ∀ rule ∈ known.erased, rule ∈ known.decided
  right : ∀ rule ∈ known.decided, ∃ production, g.rules[rule]? = some production ∧
    (rule ∈ known.erased ↔ Derives g.HasRule production.rhs [])

variable {known : Verdicts} (judges : g.Judges known) (defined : g.Defined)

include judges defined

private theorem Judges.ofRules {a : Nat} {erased : Bool} (verdict : known.ofRules ((g.ruleSets[a]?).getD ∅) = some erased) :
    erased = true ↔ Derives g.HasRule [.nonterminal a] [] := by
  have empties : Derives g.HasRule [.nonterminal a] [] ↔
      ∃ (rule : Nat) (production : Rule), g.rules[rule]? = some production ∧ production.lhs = a ∧
        Derives g.HasRule production.rhs [] := by
    rw [Derives.nonterminal_iff (by simp)]
    constructor
    · rintro ⟨rhs, ruled, derived⟩
      obtain ⟨rule, found⟩ := Array.mem_iff_getElem?.mp ruled
      exact ⟨rule, _, found, rfl, derived⟩
    · rintro ⟨rule, production, found, rfl, derived⟩
      exact ⟨production.rhs, Array.mem_of_getElem? found, derived⟩
  rw [empties]
  rw [Verdicts.ofRules] at verdict
  split at verdict
  next some =>
    obtain ⟨rule, inside⟩ := not_forall_not.mp (fun nothing => some (IdSet.eq_empty_iff.mpr nothing))
    obtain ⟨gone, own⟩ := IdSet.mem_inter.mp inside
    obtain ⟨production, found, side⟩ := (mem_ruleSets defined).mp own
    obtain ⟨_, found', right⟩ := judges.right rule (judges.decided rule gone)
    obtain rfl := Option.some.inj (found.symm.trans found')
    simp only [← Option.some.inj verdict, true_iff]
    exact ⟨rule, production, found, side, right.mp gone⟩
  next none =>
    split at verdict
    next all =>
      simp only [← Option.some.inj verdict, Bool.false_eq_true, false_iff]
      rintro ⟨rule, production, found, side, derived⟩
      have own := (mem_ruleSets defined).mpr ⟨production, found, side⟩
      have settled : rule ∈ known.decided := by
        by_contra open_
        exact IdSet.eq_empty_iff.mp all rule (IdSet.mem_diff.mpr ⟨own, open_⟩)
      obtain ⟨_, found', right⟩ := judges.right rule settled
      obtain rfl := Option.some.inj (found.symm.trans found')
      exact IdSet.eq_empty_iff.mp (not_not.mp none) rule (IdSet.mem_inter.mpr ⟨right.mpr derived, own⟩)
    next => cases verdict

private theorem Judges.ofSymbols {symbols : NumberedSymbols} {erased : Bool}
    (verdict : known.ofSymbols g.ruleSets symbols = some erased) : erased = true ↔ Derives g.HasRule symbols [] := by
  induction symbols with
  | nil =>
    simp only [← Option.some.inj verdict, true_iff]
    exact .refl
  | cons symbol rest ih =>
    rw [← List.singleton_append, Derives.append_nil_iff]
    cases symbol with
    | terminal t =>
      have solid : ¬ Derives g.HasRule [.terminal t] [] := fun derived => by cases Derives.eq_of_terminals [t] derived
      simp [← Option.some.inj verdict, solid]
    | nonterminal a =>
      rw [Verdicts.ofSymbols] at verdict
      split at verdict
      next here =>
        rw [ih verdict, ← judges.ofRules defined here]
        simp
      next other differs =>
        cases erased with
        | true => exact absurd verdict differs
        | false => simp [← judges.ofRules defined verdict]

private theorem Judges.judge {production : Rule} {rule : Nat} (found : g.rules[rule]? = some production) :
    g.Judges (known.judge g.ruleSets (production.rhs, rule)) := by
  rcases Verdicts.judge_eq_or known g.ruleSets (production.rhs, rule) with ⟨same, _⟩ | ⟨new, erased, verdict, same⟩
  · rw [same]
    exact judges
  · have right := judges.ofSymbols defined verdict
    have fresh : rule ∉ known.erased := fun gone => new (judges.decided rule gone)
    have members : ∀ other, other ∈ (known.record rule erased).erased ↔
        other ∈ known.erased ∨ (other = rule ∧ erased = true) := by
      intro other
      cases erased <;> simp [Verdicts.record]
    rw [same]
    refine ⟨fun other gone => ?_, fun other settled => ?_⟩
    · rcases (members other).mp gone with old | ⟨rfl, _⟩
      · exact IdSet.mem_insert.mpr (Or.inl (judges.decided other old))
      · exact IdSet.mem_insert.mpr (Or.inr rfl)
    · rw [members]
      rcases IdSet.mem_insert.mp settled with old | rfl
      · obtain ⟨own, known', same⟩ := judges.right other old
        have apart : other ≠ rule := fun same => new (same ▸ old)
        exact ⟨own, known', by simpa [apart] using same⟩
      · exact ⟨production, found, by simpa [fresh] using right⟩

omit judges defined

private theorem mem_numbered {rhs : NumberedSymbols} {rule : Nat} :
    (rhs, rule) ∈ (g.ruleList.map Rule.rhs).zipIdx ↔ ∃ production, g.rules[rule]? = some production ∧ production.rhs = rhs := by
  simp [List.mem_zipIdx_iff_getElem?, ruleList]

private def settled (g : Numbered) (known : Verdicts) : Nat := (List.range g.rules.size).countP (· ∈ known.decided)

private theorem settled_lt {known : Verdicts} {production : Rule} {rule : Nat} (found : g.rules[rule]? = some production)
    (changes : known.judge g.ruleSets (production.rhs, rule) ≠ known) :
    g.settled known < g.settled (known.judge g.ruleSets (production.rhs, rule)) := by
  obtain ⟨new, erased, _, same⟩ :=
    (known.judge_eq_or g.ruleSets (production.rhs, rule)).resolve_left fun ⟨same, _⟩ => changes same
  have inside : rule < g.rules.size := (Array.getElem?_eq_some_iff.mp found).1
  rw [same]
  refine countP_lt_countP ?_ (List.mem_range.mpr inside) (by simpa using new) (by simp [Verdicts.record])
  intro other _ old
  simp only [decide_eq_true_eq] at old ⊢
  exact IdSet.mem_insert.mpr (Or.inl old)

include defined

/-- The passes come to an end, and then every verdict is right. Rules are left without one only for a symbol of which it is
not known. -/
theorem verdicts_settle : Settles (g.nullableStep g.ruleSets) ∅ g.verdicts ∧ g.Judges g.verdicts ∧
    ∀ rule production, g.rules[rule]? = some production →
      rule ∈ g.verdicts.decided ∨ g.verdicts.ofSymbols g.ruleSets production.rhs = none := by
  have keeps : ∀ known, g.Judges known → ∀ rule ∈ (g.ruleList.map Rule.rhs).zipIdx, g.Judges (known.judge g.ruleSets rule) := by
    rintro known judges ⟨rhs, rule⟩ member
    obtain ⟨production, found, rfl⟩ := mem_numbered.mp member
    exact judges.judge defined found
  have grows : ∀ known, g.Judges known → ∀ rule ∈ (g.ruleList.map Rule.rhs).zipIdx,
      known.judge g.ruleSets rule ≠ known → g.settled known < g.settled (known.judge g.ruleSets rule) := by
    rintro known _ ⟨rhs, rule⟩ member changes
    obtain ⟨production, found, rfl⟩ := mem_numbered.mp member
    exact settled_lt found changes
  have bounded : ∀ known, g.Judges known → g.settled known ≤ g.rules.size := fun known _ =>
    Nat.le_trans List.countP_le_length (Nat.le_of_eq List.length_range)
  have start : g.Judges ∅ := ⟨fun rule gone => absurd gone (IdSet.not_mem_empty rule),
    fun rule settled => absurd settled (IdSet.not_mem_empty rule)⟩
  have ended : Settles (g.nullableStep g.ruleSets) ∅ g.verdicts ∧ g.Judges g.verdicts ∧
      ∀ rule ∈ (g.ruleList.map Rule.rhs).zipIdx, g.verdicts.judge g.ruleSets rule = g.verdicts :=
    settles_passes bounded keeps grows start (Nat.le_add_left ..)
  obtain ⟨settles, judges, idle⟩ := ended
  refine ⟨settles, judges, fun rule production found => ?_⟩
  rcases g.verdicts.judge_eq_or g.ruleSets (production.rhs, rule) with ⟨_, either⟩ | ⟨new, erased, _, same⟩
  · exact either
  · have unchanged := idle (production.rhs, rule) (mem_numbered.mpr ⟨production, found, rfl⟩)
    have inside : rule ∈ (g.verdicts.judge g.ruleSets (production.rhs, rule)).decided := same ▸ IdSet.mem_insert.mpr (Or.inr rfl)
    exact Or.inl (unchanged ▸ inside)

omit defined

private theorem ofSymbols_cons_nonterminal {known : Verdicts} {a : Nat} {rest : NumberedSymbols} :
    known.ofSymbols g.ruleSets (.nonterminal a :: rest) = some true ↔
      known.ofRules ((g.ruleSets[a]?).getD ∅) = some true ∧ known.ofSymbols g.ruleSets rest = some true := by
  rw [Verdicts.ofSymbols]
  split
  next here => simp [here]
  next other differs =>
    have unknown : known.ofRules ((g.ruleSets[a]?).getD ∅) ≠ some true := differs
    simp [unknown]

private theorem ofSymbols_append {known : Verdicts} {front back : NumberedSymbols} :
    known.ofSymbols g.ruleSets (front ++ back) = some true ↔
      known.ofSymbols g.ruleSets front = some true ∧ known.ofSymbols g.ruleSets back = some true := by
  induction front with
  | nil => simp [Verdicts.ofSymbols]
  | cons symbol rest ih =>
    cases symbol with
    | terminal t => simp [Verdicts.ofSymbols]
    | nonterminal a => rw [List.cons_append, ofSymbols_cons_nonterminal, ofSymbols_cons_nonterminal, ih, and_assoc]

include defined

/-- A nonterminal is known to derive the empty sequence as soon as that is known of the symbols of one of its rules. -/
private theorem ofRules_of_ofSymbols {a : Nat} {rhs : NumberedSymbols} (ruled : g.HasRule a rhs)
    (erased : g.verdicts.ofSymbols g.ruleSets rhs = some true) : g.verdicts.ofRules ((g.ruleSets[a]?).getD ∅) = some true := by
  obtain ⟨_, judges, left⟩ := verdicts_settle defined
  obtain ⟨rule, found⟩ := Array.mem_iff_getElem?.mp ruled
  have decided : rule ∈ g.verdicts.decided := (left rule _ found).resolve_right (by simp [erased])
  obtain ⟨_, found', right⟩ := judges.right rule decided
  obtain rfl := Option.some.inj (found.symm.trans found')
  have gone : rule ∈ g.verdicts.erased := right.mpr ((judges.ofSymbols defined erased).mp rfl)
  have own : rule ∈ (g.ruleSets[a]?).getD ∅ := (mem_ruleSets defined).mpr ⟨_, found, rfl⟩
  rw [Verdicts.ofRules, if_pos]
  exact fun none => IdSet.eq_empty_iff.mp none rule (IdSet.mem_inter.mpr ⟨gone, own⟩)

private theorem ofSymbols_iff {symbols : NumberedSymbols} :
    g.verdicts.ofSymbols g.ruleSets symbols = some true ↔ Derives g.HasRule symbols [] := by
  constructor
  · intro erased
    exact ((verdicts_settle defined).2.1.ofSymbols defined erased).mp rfl
  · intro derived
    induction derived using Relation.ReflTransGen.head_induction_on with
    | refl => rfl
    | head step _ ih =>
      cases step with
      | intro front back ruled =>
        obtain ⟨first, last⟩ := ofSymbols_append.mp ih
        obtain ⟨first, middle⟩ := ofSymbols_append.mp first
        exact ofSymbols_append.mpr ⟨first, ofSymbols_cons_nonterminal.mpr ⟨ofRules_of_ofSymbols defined ruled middle, last⟩⟩

theorem mem_nullable {a : Nat} : a ∈ g.nullable ↔ Derives g.HasRule [.nonterminal a] [] := by
  have known : a ∈ g.nullable ↔ a < g.names.size ∧ g.verdicts.ofSymbols g.ruleSets [.nonterminal a] = some true := by
    rw [ofSymbols_cons_nonterminal]
    simp [nullable, Verdicts.ofSymbols]
  rw [known, ofSymbols_iff defined]
  refine and_iff_right_of_imp fun derived => ?_
  obtain ⟨rhs, ruled, _⟩ := (Derives.nonterminal_iff (by simp)).mp derived
  exact defined.named _ (hasRule_iff.mp ruled)

end Numbered

end CommandLang
