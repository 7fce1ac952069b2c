import CommandLang.Proofs.Naming
import CommandLang.Proofs.Spelling

/-! Spelling out classes as a substitution. The form over fixed words exists unless a rule uses a copy class that has no
words, and its sentences are those of the grammar with a word of its class in the place of each open terminal. -/

namespace CommandLang.Grammar

variable {g flat : Grammar}

/-- A rule of `lhs` uses a copy class without placeholders. -/
def Strands (g : Grammar) (lhs name : String) : Prop :=
  ∃ rhs declaration, g.HasRule lhs rhs ∧ .spanOf name ∈ rhs ∧ g.copy.get? name = some declaration ∧ declaration.placeholders = []

theorem vocabulary_ne_nil {name : String} {vocabulary : List String} (declared : g.extensible.get? name = some vocabulary) :
    vocabulary ≠ [] := by
  rintro rfl
  have clean := g.faultless
  simp only [Draft.faults, List.append_eq_nil_iff, List.map_eq_nil_iff, List.filter_eq_nil_iff] at clean
  exact clean.1.2 _ (OrderedMap.get?_eq_some_iff.mp declared) rfl

private theorem hasRules_of_declares {terminal : Terminal} {words : List String} (declares : g.Declares terminal words)
    (some : words ≠ []) : ((Draft.empty g.start).addRules g.spelledRules).hasRules (classNonterminal terminal.name) = true := by
  obtain ⟨word, member⟩ := List.exists_mem_of_ne_nil words some
  exact Draft.hasRules_iff.mpr ⟨_, hasRule_spelled.mpr (Or.inr ⟨_, _, _, declares, member, rfl, rfl⟩)⟩

/-- A symbol of a rule has rules when it is spelled out, unless it is a copy class without placeholders. -/
private theorem hasRules_of_spellOut {lhs name : String} {source : Rhs} (known : g.HasRule lhs source)
    {symbol : Symbol Terminal String} (used : symbol ∈ source) (spelled : symbol.spellOut = .nonterminal name) :
    ((Draft.empty g.start).addRules g.spelledRules).hasRules name = true ∨
      ∃ copied, g.Strands lhs copied ∧ name = classNonterminal copied := by
  cases symbol with
  | nonterminal inner =>
    obtain ⟨rhs, ruled⟩ := g.ruled known used
    rw [← Symbol.nonterminal.inj spelled]
    exact Or.inl (Draft.hasRules_iff.mpr ⟨_, hasRule_spelled.mpr (Or.inl ⟨rhs, ruled, rfl⟩)⟩)
  | terminal terminal =>
    cases terminal with
    | fixed => cases spelled
    | extensible inner =>
      obtain ⟨_, declared⟩ := extensible_declared known used
      rw [← Symbol.nonterminal.inj spelled]
      exact Or.inl (hasRules_of_declares (.extensible declared) (vocabulary_ne_nil declared))
    | copy inner =>
      obtain ⟨declaration, declared⟩ := g.copy_declared known used
      rw [← Symbol.nonterminal.inj spelled]
      by_cases nothing : declaration.placeholders = []
      · exact Or.inr ⟨inner, ⟨source, declaration, known, used, declared, nothing⟩, rfl⟩
      · exact Or.inl (hasRules_of_declares (.copy declared) nothing)

private theorem exists_fixed_of_spelled {lhs : String} {rhs : Rhs}
    (known : ((Draft.empty g.start).addRules g.spelledRules).HasRule lhs rhs) {terminal : Terminal}
    (used : .terminal terminal ∈ rhs) : ∃ text, terminal = .fixed text := by
  rcases hasRule_spelled.mp known with ⟨source, _, rfl⟩ | ⟨_, _, word, _, _, _, rfl⟩
  · obtain ⟨symbol, _, same⟩ := List.mem_map.mp used
    match symbol, same with
    | .terminal (.fixed text), same => exact ⟨text, (Symbol.terminal.inj same).symm⟩
  · exact ⟨word, Symbol.terminal.inj (List.mem_singleton.mp used)⟩

/-- Nothing else can be wrong with the spelled out form than that a class has no rules. -/
private theorem exists_strands {fault : GrammarError} (failed : g.spellOut = .error fault) :
    ∃ lhs name, g.Strands lhs name ∧ fault = .undefinedNonterminal (classNonterminal name) lhs := by
  have member := Draft.mem_faults_of_build_eq_error failed
  have values : ((Draft.empty g.start).addRules g.spelledRules).extensible = ∅ := by rw [Draft.addRules_eq]; rfl
  have spans : ((Draft.empty g.start).addRules g.spelledRules).copy = ∅ := by rw [Draft.addRules_eq]; rfl
  have start : ((Draft.empty g.start).addRules g.spelledRules).start = g.start := by rw [Draft.addRules_eq]; rfl
  have begins : ((Draft.empty g.start).addRules g.spelledRules).hasRules g.start = true := by
    obtain ⟨rhs, ruled⟩ := g.start_ruled
    exact Draft.hasRules_iff.mpr ⟨_, hasRule_spelled.mpr (Or.inl ⟨rhs, ruled, rfl⟩)⟩
  obtain ⟨lhs, rhs, known, symbol, used, found⟩ : ∃ lhs rhs, (lhs, rhs) ∈ ((Draft.empty g.start).addRules g.spelledRules).ruleList ∧
      ∃ symbol ∈ rhs, ((Draft.empty g.start).addRules g.spelledRules).symbolFault lhs symbol = some fault := by
    simpa [Draft.faults, values, spans, start, begins] using member
  cases symbol with
  | terminal terminal =>
    obtain ⟨text, rfl⟩ := exists_fixed_of_spelled known used
    simp [Draft.symbolFault, values, spans] at found
  | nonterminal name =>
    rcases hasRule_spelled.mp known with ⟨source, ruled, rfl⟩ | ⟨_, _, _, _, _, _, rfl⟩
    · obtain ⟨symbol, inside, spelled⟩ := List.mem_map.mp used
      rcases hasRules_of_spellOut ruled inside spelled with some | ⟨copied, strands, rfl⟩
      · simp [Draft.symbolFault, some] at found
      · refine ⟨lhs, copied, strands, ?_⟩
        rw [Draft.symbolFault] at found
        split at found
        · cases found
        · exact (Option.some.inj found).symm
    · simp at used

/-- A grammar whose classes have their own nonterminals cannot be spelled out where a rule uses a copy class without
placeholders; the fault is then the nonterminal of such a class. Otherwise the form has no classes, and its sentences are
those of the grammar with a word of its class in the place of each terminal. -/
theorem spellOut_substitutes (apart : g.ClassesApart) :
    ((∃ fault, g.spellOut = .error fault) ↔ ∃ lhs name, g.Strands lhs name) ∧
    (∀ fault, g.spellOut = .error fault →
      ∃ lhs name, g.Strands lhs name ∧ fault = .undefinedNonterminal (classNonterminal name) lhs) ∧
    ∀ flat, g.spellOut = .ok flat → flat.extensible = ∅ ∧ flat.copy = ∅ ∧
      (∀ terminal ∈ flat.terminals, ∃ text, terminal = .fixed text) ∧
      ∀ words : List String, flat.Generates (words.map .fixed) ↔
        ∃ terminals, List.Forall₂ g.StandsFor words terminals ∧ g.Generates terminals := by
  refine ⟨⟨?_, ?_⟩, fun fault failed => exists_strands failed, ?_⟩
  · rintro ⟨fault, failed⟩
    obtain ⟨lhs, name, strands, _⟩ := exists_strands failed
    exact ⟨lhs, name, strands⟩
  · rintro ⟨lhs, name, rhs, declaration, known, used, declared, nothing⟩
    cases result : g.spellOut with
    | error fault => exact ⟨fault, rfl⟩
    | ok flat =>
      obtain ⟨_, _, _, rules⟩ := spellOut_eq_ok result
      have spelled : flat.HasRule lhs (rhs.map Symbol.spellOut) := (rules _ _).mpr (Or.inl ⟨rhs, known, rfl⟩)
      obtain ⟨other, ruled⟩ := flat.ruled spelled (List.mem_map.mpr ⟨_, used, rfl⟩)
      rcases (rules _ _).mp ruled with ⟨source, own, _⟩ | ⟨terminal, words, word, declares, member, named, _⟩
      · exact absurd own (apart (.copy name) _ _ (.copy declared))
      · obtain rfl := eq_of_declares (.copy declared) declares (classNonterminal_inj named)
        rw [declares.inj (.copy declared), nothing] at member
        cases member
  · intro flat spelled
    obtain ⟨_, values, spans, _⟩ := spellOut_eq_ok spelled
    refine ⟨values, spans, fun terminal member => ?_, spellOut_generates_iff apart spelled⟩
    rcases flat.mem_terminals.mp member with ⟨lhs, rhs, known, used⟩ | ⟨name, listed, _⟩ | ⟨name, listed, _⟩
    · rw [Draft.toDraft_of_build spelled] at known
      exact exists_fixed_of_spelled known used
    · rw [values] at listed
      cases listed
    · rw [spans] at listed
      cases listed

theorem spellOut_substitutes_errand : errand.ClassesApart ∧
    ∃ flat, errand.spellOut = .ok flat ∧ flat.Generates (["send", "to", "ben", "it"].map .fixed) := by
  have apart : errand.ClassesApart := by
    intro terminal words rhs _ known
    have names : errand.rules.keys = ["S", "L"] := by decide +kernel
    have listed := names ▸ known.mem_keys
    simp [classNonterminal, String.ext_iff] at listed
  have built : errand.spellOut.toOption.isSome = true := by decide +kernel
  obtain ⟨flat, found⟩ := Option.isSome_iff_exists.mp built
  have spelled := eq_ok_of_toOption found
  obtain ⟨_, _, _, sentences⟩ := (spellOut_substitutes apart).2.2 flat spelled
  refine ⟨apart, flat, spelled, (sentences _).mpr ⟨_, ?_, errand_generates⟩⟩
  have listed : errand.extensible.get? "name" = some ["anna", "ben"] := by decide +kernel
  have quoted : errand.copy.get? "quote" = some ⟨"<", ">", ["it"]⟩ := by decide +kernel
  exact .cons (.fixed _) (.cons (.fixed _)
    (.cons (.classWord (.extensible listed) (by decide)) (.cons (.classWord (.copy quoted) (by decide)) .nil)))

end CommandLang.Grammar
