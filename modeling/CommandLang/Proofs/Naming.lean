import CommandLang.Proofs.Recognition

/-! Leaves as terminals of the grammar. A leaf names a terminal by its token and carries what this terminal asks
for. The automaton of a grammar recognises the sequences of its language. -/

namespace CommandLang

/-- What a terminal asks its token to carry. -/
inductive Draft.Fits (d : Draft) : Terminal → Payload → Prop where
  | fixed {text : String} : Fits d (.fixed text) .none
  | extensible {name : String} {vocabulary : List String} {place : Nat}
      (declared : d.extensible.get? name = some vocabulary) (inside : place < vocabulary.length) :
      Fits d (.extensible name) (.index place)
  | copy {name : String} {first last : Nat} (ordered : first ≤ last) : Fits d (.copy name) (.span first last)

/-- Leaves name terminals of an automaton and carry what these ask for in a draft. -/
def Automaton.Names (a : Automaton) (d : Draft) : List Leaf → List Terminal → Prop :=
  List.Forall₂ fun leaf terminal => a.grammar.terminal? leaf.token = some terminal ∧ d.Fits terminal leaf.payload

namespace Grammar

variable {g : Grammar}

theorem vocabularySize_number {name : String} {token : Nat} (named : g.number.terminal? token = some (.extensible name)) :
    g.number.vocabularySize token = ((g.extensible.get? name).map List.length).getD 0 := by
  obtain ⟨member, number⟩ := terminal?_number.mp named
  obtain rfl := Symbol.terminal.inj number
  have entry : ∀ entries : List (String × List String), (∀ entry ∈ entries, .extensible entry.1 ∈ g.terminals) →
      (entries.map fun entry => (Token.controls + g.terminals.idxOf (.extensible entry.1), entry.2.length)).lookup
        (Token.controls + g.terminals.idxOf (.extensible name)) = (entries.lookup name).map List.length := by
    intro entries known
    induction entries with
    | nil => rfl
    | cons entry rest ih =>
      obtain ⟨other, vocabulary⟩ := entry
      rw [List.forall_mem_cons] at known
      have later := ih known.2
      by_cases same : name = other
      · simp [same]
      · have apart : g.terminals.idxOf (.extensible name) ≠ g.terminals.idxOf (.extensible other) := fun equal =>
          same (Terminal.extensible.inj ((List.idxOf_inj member).mp equal))
        have names : (name == other) = false := by simpa using same
        have numbers : (Token.controls + g.terminals.idxOf (.extensible name) ==
            Token.controls + g.terminals.idxOf (.extensible other)) = false := by simpa using apart
        simpa only [List.map_cons, List.lookup_cons, numbers, names] using later
  have declared : ∀ entry ∈ g.extensible.entries, .extensible entry.1 ∈ g.terminals := by
    rintro ⟨other, vocabulary⟩ inside
    exact extensible_mem_terminals (OrderedMap.get?_eq_some_iff.mpr inside)
  exact congrArg (Option.getD · 0) (entry g.extensible.entries declared)

theorem payloadFits_iff {a : Automaton} (numbered : a.grammar = g.number) {leaf : Leaf} :
    a.payloadFits leaf = true ↔ ∃ terminal, a.grammar.terminal? leaf.token = some terminal ∧ g.Fits terminal leaf.payload := by
  obtain ⟨token, payload⟩ := leaf
  rw [Automaton.payloadFits, numbered]
  cases named : g.number.terminal? token with
  | none => simp
  | some terminal =>
    simp only [Option.some.injEq, exists_eq_left']
    constructor
    · intro fits
      cases terminal with
      | fixed text =>
        cases payload with
        | none => exact .fixed
        | _ => cases fits
      | extensible name =>
        cases payload with
        | index place =>
          have inside : place < ((g.extensible.get? name).map List.length).getD 0 := by
            simpa [vocabularySize_number named] using fits
          cases declared : g.extensible.get? name with
          | none => simp [declared] at inside
          | some vocabulary => exact .extensible declared (by simpa [declared] using inside)
        | _ => cases fits
      | copy name =>
        cases payload with
        | span first last => exact .copy (by simpa using fits)
        | _ => cases fits
    · intro fits
      cases fits with
      | fixed => rfl
      | extensible declared inside =>
        simp [vocabularySize_number named, declared, inside]
      | copy ordered => simp [ordered]

theorem exists_names_iff {a : Automaton} (numbered : a.grammar = g.number) {leaves : List Leaf} :
    (∃ word, a.Names g.toDraft leaves word) ↔ ∀ leaf ∈ leaves, a.payloadFits leaf = true := by
  simp only [payloadFits_iff numbered]
  constructor
  · rintro ⟨word, named⟩
    induction named with
    | nil => simp
    | cons first _ ih => exact List.forall_mem_cons.mpr ⟨⟨_, first⟩, ih⟩
  · intro fits
    induction leaves with
    | nil => exact ⟨[], .nil⟩
    | cons leaf rest ih =>
      obtain ⟨⟨terminal, first⟩, later⟩ := List.forall_mem_cons.mp fits
      obtain ⟨word, named⟩ := ih later
      exact ⟨terminal :: word, .cons first named⟩

theorem tokens_of_names {a : Automaton} (numbered : a.grammar = g.number) {leaves : List Leaf} {word : List Terminal}
    (named : a.Names g.toDraft leaves word) :
    List.Forall₂ (fun token terminal => g.number.terminal? token = some terminal) (leaves.map Leaf.token) word :=
  List.forall₂_map_left_iff.mpr (named.imp fun _ _ both => numbered ▸ both.1)

theorem generates_iff_forest {a : Automaton} (numbered : a.grammar = g.number) {leaves : List Leaf} {word : List Terminal}
    (named : a.Names g.toDraft leaves word) :
    g.Generates word ↔ ∃ forest : Forest, forest.Of g.number [.nonterminal g.number.start] ∧ forest.leaves = leaves := by
  rw [generates_iff (tokens_of_names numbered named), List.map_map]
  constructor
  · exact fun derived => Forest.Of.of_derives derived
  · rintro ⟨forest, tree, rfl⟩
    exact tree.derives

/-- The automaton of a grammar recognises exactly the language of the grammar: a sequence has events, in either
order, if its leaves name terminals, carry what these ask for, and the terminals are generated. -/
theorem recognises {a : Automaton} (built : g.automaton = .ok a) (order : Order) (leaves : List Leaf) :
    (∃ events, a.parse order leaves = .ok events) ↔
      ∃ word, a.Names g.toDraft leaves word ∧ g.Generates word := by
  have table := automaton_tabulates built
  simp only [Automaton.parse_eq_ok_iff table g.number_lawful, ← exists_names_iff table.grammar]
  constructor
  · rintro ⟨_, ⟨word, named⟩, forest, tree, whole, _⟩
    exact ⟨word, named, (generates_iff_forest table.grammar named).mpr ⟨forest, tree, whole⟩⟩
  · rintro ⟨word, named, generated⟩
    obtain ⟨forest, tree, whole⟩ := (generates_iff_forest table.grammar named).mp generated
    exact ⟨_, ⟨word, named⟩, forest, tree, whole, rfl⟩

def errand : Grammar where
  toDraft := ((Draft.empty "S").addRules [("S", [.word "send", .nonterminal "L"]), ("L", []),
    ("L", [.nonterminal "L", .word "to", .valueOf "name"]), ("L", [.nonterminal "L", .spanOf "quote"])])
    |>.declareExtensible "name" ["anna", "ben"] |>.declareCopy "quote" ⟨"<", ">", ["it"]⟩
  faultless := by decide +kernel

theorem eq_ok_of_toOption {ε α : Type} {result : Except ε α} {value : α} (found : result.toOption = some value) :
    result = .ok value := by
  cases result with
  | error => cases found
  | ok => exact congrArg _ (Option.some.inj found)

theorem errand_automaton : ∃ a, errand.automaton = .ok a := by
  have built : errand.automaton.toOption.isSome = true := by decide +kernel
  obtain ⟨a, found⟩ := Option.isSome_iff_exists.mp built
  exact ⟨a, eq_ok_of_toOption found⟩

theorem errand_generates : errand.Generates [.fixed "send", .fixed "to", .extensible "name", .copy "quote"] := by
  have whole : ("S", [.word "send", .nonterminal "L"]) ∈ errand.ruleList := by decide +kernel
  have quoted : ("L", [.nonterminal "L", .spanOf "quote"]) ∈ errand.ruleList := by decide +kernel
  have addressed : ("L", [.nonterminal "L", .word "to", .valueOf "name"]) ∈ errand.ruleList := by decide +kernel
  have nothing : ("L", []) ∈ errand.ruleList := by decide +kernel
  have first : Derives errand.HasRule [.nonterminal "S"] [.word "send", .nonterminal "L"] := Derives.of_rule whole
  have second := first.tail (.intro [.word "send"] [] quoted)
  have third := second.tail (.intro [.word "send"] [.spanOf "quote"] addressed)
  exact third.tail (@Rewrites.intro _ _ errand.HasRule [.word "send"] _ "L" [] nothing)

theorem recognises_errand : ∃ a, errand.automaton = .ok a ∧
    ∃ events, a.parse .bottomUp [⟨3, .none⟩, ⟨4, .none⟩, ⟨5, .index 1⟩, ⟨6, .span 2 3⟩] = .ok events := by
  obtain ⟨a, built⟩ := errand_automaton
  refine ⟨a, built, (recognises built .bottomUp _).mpr
    ⟨[.fixed "send", .fixed "to", .extensible "name", .copy "quote"], ?_, ?_⟩⟩
  · have declared : errand.extensible.get? "name" = some ["anna", "ben"] := by decide +kernel
    rw [Automaton.Names, (automaton_tabulates built).grammar]
    exact .cons ⟨by decide +kernel, .fixed⟩ (.cons ⟨by decide +kernel, .fixed⟩
      (.cons ⟨by decide +kernel, .extensible declared (by decide)⟩ (.cons ⟨by decide +kernel, .copy (by decide)⟩ .nil)))
  · exact errand_generates

end Grammar

end CommandLang
