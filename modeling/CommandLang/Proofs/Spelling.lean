import CommandLang.Proofs.Grammar
import CommandLang.Grammar.Spelling
import Mathlib.Data.List.Forall2

/-! The language of a grammar with its classes spelled out. Its sentential forms are those of the grammar itself, with a
nonterminal or one of its words in the place of each class, so it generates the words that stand for what the grammar
generates. -/

namespace CommandLang

/-- The words of a class, by the terminal of the class. -/
inductive Draft.Declares (d : Draft) : Terminal → List String → Prop where
  | extensible {name : String} {words : List String} (declared : d.extensible.get? name = some words) :
      Declares d (.extensible name) words
  | copy {name : String} {declaration : CopyClass} (declared : d.copy.get? name = some declaration) :
      Declares d (.copy name) declaration.placeholders

inductive Draft.StandsFor (d : Draft) : String → Terminal → Prop where
  | fixed (text : String) : StandsFor d text (.fixed text)
  | classWord {word : String} {terminal : Terminal} {words : List String} (declared : d.Declares terminal words)
      (member : word ∈ words) : StandsFor d word terminal

namespace Draft

variable {d : Draft} {lhs : String} {rhs : Rhs}

theorem hasRule_iff_mem_productions : d.HasRule lhs rhs ↔ rhs ∈ d.productions lhs := by
  rw [hasRule_iff, productions]
  constructor
  · intro listed
    obtain ⟨known, inside, member⟩ := listed
    rwa [OrderedMap.get?_eq_some_iff.mpr inside]
  · intro member
    cases found : d.rules.get? lhs with
    | none => simp [found] at member
    | some known => exact ⟨known, OrderedMap.get?_eq_some_iff.mp found, by simpa [found] using member⟩

theorem hasRule_addRule {name : String} {body : Rhs} :
    (d.addRule name body).HasRule lhs rhs ↔ d.HasRule lhs rhs ∨ (lhs = name ∧ rhs = body) := by
  rw [hasRule_iff_mem_productions, hasRule_iff_mem_productions]
  simp only [productions, addRule, OrderedMap.get?_update]
  by_cases same : lhs = name
  · subst same
    simp only [if_true, Option.getD_some, true_and]
    split
    next known =>
      constructor
      · exact Or.inl
      · intro either
        rcases either with member | rfl
        · exact member
        · exact known
    next => simp
  · simp [same]

theorem hasRule_addRules {rules : List (String × Rhs)} :
    (d.addRules rules).HasRule lhs rhs ↔ d.HasRule lhs rhs ∨ (lhs, rhs) ∈ rules := by
  induction rules generalizing d with
  | nil => simp [addRules]
  | cons rule rest ih =>
    change ((d.addRule rule.1 rule.2).addRules rest).HasRule lhs rhs ↔ _
    rw [ih, hasRule_addRule, List.mem_cons, or_assoc, Prod.ext_iff]

theorem hasRule_congr {other : Draft} (same : d.rules = other.rules) : d.HasRule lhs rhs ↔ other.HasRule lhs rhs := by
  rw [HasRule, HasRule, ruleList, ruleList, same]

theorem not_hasRule_empty (start : String) : ¬ (Draft.empty start).HasRule lhs rhs := List.not_mem_nil

theorem addRules_eq (d : Draft) (rules : List (String × Rhs)) : d.addRules rules = { d with rules := (d.addRules rules).rules } := by
  induction rules generalizing d with
  | nil => rfl
  | cons rule rest ih => exact ih (d.addRule rule.1 rule.2)

theorem mem_classWords {name : String} {words : List String} :
    (name, words) ∈ d.classWords ↔ ∃ terminal, d.Declares terminal words ∧ terminal.name = name := by
  simp only [classWords, List.mem_append, List.mem_map, Prod.exists, Prod.mk.injEq]
  constructor
  · intro either
    rcases either with inside | ⟨_, declaration, inside, rfl, rfl⟩
    · exact ⟨.extensible name, .extensible (OrderedMap.get?_eq_some_iff.mpr inside), rfl⟩
    · exact ⟨.copy _, .copy (OrderedMap.get?_eq_some_iff.mpr inside), rfl⟩
  · intro declared
    obtain ⟨terminal, declares, named⟩ := declared
    cases declares with
    | extensible declared => exact Or.inl (named ▸ OrderedMap.get?_eq_some_iff.mp declared)
    | copy declared => exact Or.inr ⟨_, _, OrderedMap.get?_eq_some_iff.mp declared, named, rfl⟩

theorem Declares.inj {terminal : Terminal} {words others : List String} (left : d.Declares terminal words)
    (right : d.Declares terminal others) : words = others := by
  cases left with
  | extensible declared =>
    cases right with
    | extensible declared' => exact Option.some.inj (declared.symm.trans declared')
  | copy declared =>
    cases right with
    | copy declared' => rw [Option.some.inj (declared.symm.trans declared')]

end Draft

theorem exists_append_of_forall₂ {α β : Type} {R : α → β → Prop} {front back : List α} {whole : List β}
    (related : List.Forall₂ R (front ++ back) whole) :
    ∃ left right, whole = left ++ right ∧ List.Forall₂ R front left ∧ List.Forall₂ R back right := by
  induction front generalizing whole with
  | nil => exact ⟨[], whole, rfl, .nil, related⟩
  | cons first front ih =>
    obtain ⟨image, _, here, later, rfl⟩ := List.forall₂_cons_left_iff.mp related
    obtain ⟨left, right, rfl, earlier, behind⟩ := ih later
    exact ⟨image :: left, right, rfl, .cons here earlier, behind⟩

theorem classNonterminal_inj {name other : String} (same : classNonterminal name = classNonterminal other) : name = other :=
  String.append_right_inj _ |>.mp same

namespace Grammar

variable {g flat : Grammar}

theorem not_extensible_and_copy {name : String} {words : List String} {declaration : CopyClass}
    (left : g.extensible.get? name = some words) (right : g.copy.get? name = some declaration) : False := by
  have clean := g.faultless
  simp only [Draft.faults, List.append_eq_nil_iff, List.map_eq_nil_iff, List.filter_eq_nil_iff] at clean
  exact clean.1.1.2 name (OrderedMap.contains_iff.mp (OrderedMap.contains_of_get? left)) (OrderedMap.contains_of_get? right)

theorem eq_of_declares {terminal other : Terminal} {words others : List String} (left : g.Declares terminal words)
    (right : g.Declares other others) (same : terminal.name = other.name) : terminal = other := by
  cases left with
  | @extensible name _ declared =>
    cases right with
    | extensible => exact congrArg _ same
    | @copy name' _ declared' =>
      obtain rfl : name = name' := same
      exact (not_extensible_and_copy declared declared').elim
  | @copy name _ declared =>
    cases right with
    | @extensible name' _ declared' =>
      obtain rfl : name = name' := same
      exact (not_extensible_and_copy declared' declared).elim
    | copy => exact congrArg _ same

theorem extensible_declared {lhs name : String} {rhs : Rhs} (known : g.HasRule lhs rhs)
    (used : .terminal (.extensible name) ∈ rhs) : ∃ vocabulary, g.extensible.get? name = some vocabulary := by
  have clean := g.symbolFault_eq_none known used
  simp only [Draft.symbolFault, ite_eq_left_iff, reduceCtorEq, imp_false, Bool.not_eq_true, Bool.not_eq_false] at clean
  exact OrderedMap.get?_of_contains clean

theorem hasRule_spelled {lhs : String} {rhs : Rhs} : ((Draft.empty g.start).addRules g.spelledRules).HasRule lhs rhs ↔
    (∃ source, g.HasRule lhs source ∧ rhs = source.map Symbol.spellOut) ∨
      ∃ terminal words word, g.Declares terminal words ∧ word ∈ words ∧ lhs = classNonterminal terminal.name ∧ rhs = [.word word] := by
  rw [Draft.hasRule_addRules]
  simp only [Draft.not_hasRule_empty, false_or, Draft.spelledRules, List.mem_append, List.mem_map, List.mem_flatMap, Prod.exists,
    Prod.mk.injEq, Draft.mem_classWords]
  apply or_congr
  · constructor
    · intro spelled
      obtain ⟨_, source, known, named, body⟩ := spelled
      exact ⟨source, named ▸ known, body.symm⟩
    · intro ruled
      obtain ⟨source, known, body⟩ := ruled
      exact ⟨lhs, source, known, rfl, body.symm⟩
  · constructor
    · intro spelled
      obtain ⟨_, words, ⟨terminal, declares, named⟩, word, member, left, right⟩ := spelled
      exact ⟨terminal, words, word, declares, member, named ▸ left.symm, right.symm⟩
    · intro declared
      obtain ⟨terminal, words, word, declares, member, left, right⟩ := declared
      exact ⟨terminal.name, words, ⟨terminal, declares, rfl⟩, word, member, left.symm, right.symm⟩

/-- The spelled out form of a grammar has its rules and one for each word of a class, and no classes. -/
theorem spellOut_eq_ok (spelled : g.spellOut = .ok flat) :
    flat.start = g.start ∧ flat.extensible = ∅ ∧ flat.copy = ∅ ∧
      ∀ lhs rhs, flat.HasRule lhs rhs ↔ (∃ source, g.HasRule lhs source ∧ rhs = source.map Symbol.spellOut) ∨
        ∃ terminal words word, g.Declares terminal words ∧ word ∈ words ∧ lhs = classNonterminal terminal.name ∧ rhs = [.word word] := by
  rw [Draft.toDraft_of_build spelled]
  exact ⟨by rw [Draft.addRules_eq]; rfl, by rw [Draft.addRules_eq]; rfl, by rw [Draft.addRules_eq]; rfl, fun _ _ => hasRule_spelled⟩

/-- A symbol of a sentential form over fixed words in the place of a symbol of the grammar: a class is the nonterminal
of the class at first and becomes a word of the class then. -/
inductive Images (g : Grammar) : Symbol Terminal String → Symbol Terminal String → Prop where
  | nonterminal {name : String} {rhs : Rhs} (ruled : g.HasRule name rhs) : Images g (.nonterminal name) (.nonterminal name)
  | ofClass {terminal : Terminal} {words : List String} (declared : g.Declares terminal words) :
      Images g (.nonterminal (classNonterminal terminal.name)) (.terminal terminal)
  | word {word : String} {terminal : Terminal} (stands : g.StandsFor word terminal) : Images g (.word word) (.terminal terminal)

theorem images_spellOut {lhs : String} {rhs : Rhs} (known : g.HasRule lhs rhs) {symbol : Symbol Terminal String}
    (used : symbol ∈ rhs) : g.Images symbol.spellOut symbol := by
  cases symbol with
  | nonterminal name =>
    obtain ⟨_, ruled⟩ := g.ruled known used
    exact .nonterminal ruled
  | terminal terminal =>
    cases terminal with
    | fixed text => exact .word (.fixed text)
    | extensible name =>
      obtain ⟨_, declared⟩ := extensible_declared known used
      exact .ofClass (.extensible declared)
    | copy name =>
      obtain ⟨_, declared⟩ := g.copy_declared known used
      exact .ofClass (.copy declared)

theorem exists_rule_of_fixed {text : String} (member : .fixed text ∈ g.terminals) :
    ∃ lhs rhs, g.HasRule lhs rhs ∧ .word text ∈ rhs := by
  rcases g.mem_terminals.mp member with used | ⟨_, _, other⟩ | ⟨_, _, other⟩
  · exact used
  · cases other
  · cases other

/-- No word stands for two terminals. -/
def Unmistakable (g : Grammar) : Prop :=
  ∀ word terminal other, terminal ∈ g.terminals → other ∈ g.terminals →
    g.StandsFor word terminal → g.StandsFor word other → terminal = other

def FixesDevices (g : Grammar) (devices : OrderedMap String String) : Prop :=
  ∀ word device, devices.get? word = some device → ∀ terminal, g.StandsFor device terminal → terminal = .fixed device

/-- No rule has the nonterminal of a class as its left-hand side. -/
def ClassesApart (g : Grammar) : Prop :=
  ∀ terminal words rhs, g.Declares terminal words → ¬ g.HasRule (classNonterminal terminal.name) rhs

variable (apart : g.ClassesApart) (spelled : g.spellOut = .ok flat)

include apart spelled

private theorem images_rewrite {lhs : String} {symbol : Symbol Terminal String} (image : g.Images (.nonterminal lhs) symbol)
    {rhs : Rhs} (known : flat.HasRule lhs rhs) :
    ∃ source, Derives g.HasRule [symbol] source ∧ List.Forall₂ g.Images rhs source := by
  obtain ⟨_, _, _, rules⟩ := spellOut_eq_ok spelled
  rcases (rules lhs rhs).mp known with ⟨source, ruled, rfl⟩ | ⟨terminal, words, word, declares, member, named, rfl⟩
  · cases image with
    | nonterminal =>
      refine ⟨source, .of_rule ruled, List.forall₂_map_left_iff.mpr (List.forall₂_same.mpr ?_)⟩
      exact fun symbol used => images_spellOut ruled used
    | ofClass declares => exact absurd ruled (apart _ _ _ declares)
  · generalize image' : Symbol.nonterminal lhs = left at image
    cases image with
    | @nonterminal name _ ruled =>
      obtain rfl := Symbol.nonterminal.inj image'
      exact absurd (named ▸ ruled) (apart _ _ _ declares)
    | @ofClass other _ declares' =>
      have names := classNonterminal_inj (named.symm.trans (Symbol.nonterminal.inj image'))
      obtain rfl := eq_of_declares declares declares' names
      exact ⟨[.terminal terminal], .refl, .cons (.word (.classWord declares member)) .nil⟩
    | word => cases image'

/-- What the spelled out form derives stands for what the grammar derives. -/
private theorem exists_derives {before after source : Rhs} (images : List.Forall₂ g.Images before source)
    (derived : Derives flat.HasRule before after) :
    ∃ target, Derives g.HasRule source target ∧ List.Forall₂ g.Images after target := by
  induction derived with
  | refl => exact ⟨source, .refl, images⟩
  | tail _ step ih =>
    obtain ⟨between, derived, images⟩ := ih
    cases step with
    | @intro front back lhs rhs known =>
      obtain ⟨left, rest, rfl, here, behind⟩ := exists_append_of_forall₂ images
      obtain ⟨symbol, right, image, later, rfl⟩ := List.forall₂_cons_left_iff.mp behind
      obtain ⟨changed, rewritten, images⟩ := images_rewrite apart spelled image known
      refine ⟨left ++ changed ++ right, derived.trans ?_, List.rel_append (List.rel_append here images) later⟩
      simpa using (rewritten.append_right right).append_left left

omit apart in
/-- Whatever the grammar derives the spelled out form derives with its classes spelled out. -/
private theorem derives_spellOut {before after : Rhs} (derived : Derives g.HasRule before after) :
    Derives flat.HasRule (before.map Symbol.spellOut) (after.map Symbol.spellOut) := by
  obtain ⟨_, _, _, rules⟩ := spellOut_eq_ok spelled
  induction derived with
  | refl => exact .refl
  | tail _ step ih =>
    cases step with
    | @intro front back lhs rhs known =>
      simp only [List.map_append, List.map_cons] at ih ⊢
      exact ih.rewrite ((rules _ _).mpr (Or.inl ⟨rhs, known, rfl⟩))

omit apart in
private theorem derives_words {words : List String} {terminals : List Terminal} (stands : List.Forall₂ g.StandsFor words terminals) :
    Derives flat.HasRule ((terminals.map .terminal).map Symbol.spellOut) ((words.map Terminal.fixed).map .terminal) := by
  obtain ⟨_, _, _, rules⟩ := spellOut_eq_ok spelled
  induction stands with
  | nil => exact .refl
  | @cons word terminal words terminals stands _ ih =>
    have here : Derives flat.HasRule [(Symbol.terminal terminal : Symbol Terminal String).spellOut] [.word word] := by
      cases stands with
      | fixed => exact .refl
      | classWord declared member =>
        have known := (rules _ _).mpr (Or.inr ⟨_, _, _, declared, member, rfl, rfl⟩)
        cases declared <;> exact .of_rule known
    exact here.append ih

/-- The spelled out form of a grammar generates the words that stand for what the grammar generates. -/
theorem spellOut_generates_iff (words : List String) :
    flat.Generates (words.map .fixed) ↔ ∃ terminals, List.Forall₂ g.StandsFor words terminals ∧ g.Generates terminals := by
  obtain ⟨start, _⟩ := spellOut_eq_ok spelled
  constructor
  · intro generated
    obtain ⟨_, ruled⟩ := g.start_ruled
    rw [Draft.Generates, start] at generated
    obtain ⟨target, derived, images⟩ := exists_derives apart spelled (.cons (.nonterminal ruled) .nil) generated
    rw [List.map_map, List.forall₂_map_left_iff] at images
    have told : ∀ {words : List String} {target : Rhs},
        List.Forall₂ (fun word symbol => g.Images (.word word) symbol) words target →
        ∃ terminals, target = terminals.map Symbol.terminal ∧ List.Forall₂ g.StandsFor words terminals := by
      intro words target images
      induction images with
      | nil => exact ⟨[], rfl, .nil⟩
      | cons image _ ih =>
        obtain ⟨terminals, rfl, stands⟩ := ih
        cases image with
        | word first => exact ⟨_ :: terminals, rfl, .cons first stands⟩
    obtain ⟨terminals, rfl, stands⟩ := told images
    exact ⟨terminals, stands, derived⟩
  · intro stands
    obtain ⟨terminals, stands, generated⟩ := stands
    rw [Draft.Generates, start]
    exact (derives_spellOut spelled generated).trans (derives_words spelled stands)

end Grammar

end CommandLang
