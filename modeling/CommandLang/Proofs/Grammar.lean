import CommandLang.Proofs.Derivation
import CommandLang.Proofs.Entries

/-! What a draft without faults promises: every nonterminal that is used has a rule, and every class that
is used is declared, as one kind only. -/

namespace CommandLang

namespace Draft

variable {d : Draft}

theorem hasRule_iff {lhs : String} {rhs : Rhs} :
    d.HasRule lhs rhs ↔ ∃ productions, (lhs, productions) ∈ d.rules.entries ∧ rhs ∈ productions := by
  simp only [HasRule, ruleList, List.mem_flatMap, List.mem_map, Prod.exists, Prod.mk.injEq]
  constructor
  · rintro ⟨_, productions, inside, _, member, rfl, rfl⟩
    exact ⟨productions, inside, member⟩
  · rintro ⟨productions, inside, member⟩
    exact ⟨lhs, productions, inside, rhs, member, rfl, rfl⟩

theorem HasRule.mem_keys {lhs : String} {rhs : Rhs} (known : d.HasRule lhs rhs) : lhs ∈ d.rules.keys := by
  obtain ⟨productions, inside, _⟩ := hasRule_iff.mp known
  exact List.mem_map.mpr ⟨_, inside, rfl⟩

theorem hasRules_iff {name : String} : d.hasRules name = true ↔ ∃ rhs, d.HasRule name rhs := by
  have present : d.hasRules name = true ↔ ∃ rhs, rhs ∈ d.productions name := by
    rw [hasRules, Bool.not_eq_true', List.isEmpty_eq_false_iff_exists_mem]
  rw [present, productions]
  constructor
  · rintro ⟨rhs, member⟩
    cases found : d.rules.get? name with
    | none => simp [found] at member
    | some known =>
      rw [found] at member
      exact ⟨rhs, hasRule_iff.mpr ⟨known, OrderedMap.get?_eq_some_iff.mp found, member⟩⟩
  · rintro ⟨rhs, known⟩
    obtain ⟨productions, inside, member⟩ := hasRule_iff.mp known
    exact ⟨rhs, by simpa [OrderedMap.get?_eq_some_iff.mpr inside] using member⟩

theorem toDraft_of_build {g : Grammar} (built : d.build = .ok g) : g.toDraft = d := by
  rw [build] at built
  split at built
  · exact congrArg Grammar.toDraft (Except.ok.inj built).symm
  · cases built

theorem mem_faults_of_build_eq_error {fault : GrammarError} (failed : d.build = .error fault) : fault ∈ d.faults := by
  rw [build] at failed
  split at failed
  next => cases failed
  next first rest faulty => exact Except.error.inj failed ▸ faulty ▸ List.mem_cons_self ..

end Draft

namespace Grammar

variable (g : Grammar)

theorem start_ruled : ∃ rhs, g.HasRule g.start rhs := by
  have clean := g.faultless
  simp only [Draft.faults, List.append_eq_nil_iff, ite_eq_left_iff, List.cons_ne_nil, imp_false,
    Bool.not_eq_true, Bool.not_eq_false] at clean
  exact Draft.hasRules_iff.mp clean.1.1.1

theorem symbolFault_eq_none {lhs : String} {rhs : Rhs} (known : g.HasRule lhs rhs) {symbol : Symbol Terminal String}
    (used : symbol ∈ rhs) : g.symbolFault lhs symbol = none := by
  have clean := g.faultless
  simp only [Draft.faults, List.append_eq_nil_iff, List.flatMap_eq_nil_iff] at clean
  exact List.filterMap_eq_nil_iff.mp (clean.2 _ known) symbol used

theorem ruled {lhs name : String} {rhs : Rhs} (known : g.HasRule lhs rhs) (used : .nonterminal name ∈ rhs) :
    ∃ other, g.HasRule name other := by
  have clean := g.symbolFault_eq_none known used
  simp only [Draft.symbolFault, ite_eq_left_iff, reduceCtorEq, imp_false, Bool.not_eq_true,
    Bool.not_eq_false] at clean
  exact Draft.hasRules_iff.mp clean

theorem mem_terminals {terminal : Terminal} :
    terminal ∈ g.terminals ↔ (∃ lhs rhs, g.HasRule lhs rhs ∧ .terminal terminal ∈ rhs) ∨
      (∃ name ∈ g.extensible.keys, .extensible name = terminal) ∨ ∃ name ∈ g.copy.keys, .copy name = terminal := by
  have used : ∀ rhs : Rhs, (∃ symbol ∈ rhs, symbol.terminal? = some terminal) ↔ .terminal terminal ∈ rhs := by
    intro rhs
    constructor
    · intro listed
      obtain ⟨symbol, inside, found⟩ := listed
      cases symbol with
      | terminal other => exact Option.some.inj found ▸ inside
      | nonterminal => cases found
    · intro inside
      exact ⟨_, inside, rfl⟩
  rw [Draft.terminals, List.mem_eraseDups, List.mem_append, List.mem_append, or_assoc, List.mem_map, List.mem_map]
  simp only [List.mem_flatMap, List.mem_filterMap, Prod.exists, Draft.HasRule, used]

theorem copy_declared {lhs name : String} {rhs : Rhs} (known : g.HasRule lhs rhs)
    (used : .terminal (.copy name) ∈ rhs) : ∃ declaration, g.copy.get? name = some declaration := by
  have clean := g.symbolFault_eq_none known used
  simp only [Draft.symbolFault, ite_eq_left_iff, reduceCtorEq, imp_false, Bool.not_eq_true,
    Bool.not_eq_false] at clean
  exact OrderedMap.get?_of_contains clean

end Grammar

end CommandLang
