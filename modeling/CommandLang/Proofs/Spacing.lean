import CommandLang.Proofs.Division

/-! Room between devices. Where devices are joined no two words of devices and functions stand side by side in a sentence,
so where they are divided no three of them do. -/

namespace CommandLang

/-- Of two neighbours one is no device or function, or the second starts with something that is none. -/
def Symbol.Apart (left right : Symbol Terminal String) : Prop := left.quiet = true ∨ right.quiet = true ∨ right.isLed = true

theorem isChain_of_spaced {rhs : Rhs} (room : spaced rhs = true) : rhs.IsChain Symbol.Apart := by
  induction rhs with
  | nil => exact .nil
  | cons left rest ih =>
    cases rest with
    | nil => exact .singleton left
    | cons right rest =>
      simp only [spaced, Bool.and_eq_true, Bool.or_eq_true, or_assoc] at room
      exact List.isChain_cons_cons.mpr ⟨room.1, ih room.2⟩

def Terminal.signed (terminal : Terminal) : Prop := ∃ text, terminal = .fixed text ∧ CommandLang.signed text = true

theorem not_signed_of_quiet {terminal : Terminal} (quiet : (Symbol.terminal terminal).quiet = true) : ¬ terminal.signed := by
  rintro ⟨text, rfl, sign⟩
  simp [plain, sign] at quiet

theorem plain_joined_device (device : String) : plain (deviceWord false device) = false := by
  simp [plain, deviceWord, List.isPrefixOf]

namespace Schema

variable {s : Schema}

/-- The rules of joined devices keep devices and functions apart, inside and at their first symbols. -/
theorem JoinedRule.apart {lhs : String} {rhs : Rhs} (rule : s.JoinedRule lhs rhs) :
    rhs ≠ [] ∧ rhs.IsChain Symbol.Apart ∧ (led lhs = true → ∃ first ∈ rhs.head?, first.quiet = true) := by
  have callers : ∀ kind : FunctionKind, led kind.caller = false := by
    intro kind
    cases kind <;> decide
  cases rule with
  | function => simp [callers]
  | device => simp [deviceConstant]
  | shared neutral =>
    simp only [Clause.neutral_rule, neutralBody, Bool.and_eq_true, Bool.or_eq_true, Bool.not_eq_true', List.isEmpty_eq_false_iff,
      Option.any_eq_true] at neutral
    obtain ⟨⟨_, ⟨nonempty, _⟩, room⟩, first⟩ := neutral
    exact ⟨nonempty, isChain_of_spaced room, fun leads => first.resolve_left (by simp [leads])⟩

/-- Devices and functions stay apart in whatever is derived with joined devices. -/
theorem isChain_of_derives (legible : s.Legible) {form : Rhs} (derived : Derives s.joined.draft.HasRule [.nonterminal startName] form) :
    form.IsChain Symbol.Apart := by
  induction derived with
  | refl => exact .singleton _
  | tail _ step ih =>
    cases step with
    | @intro front back lhs rhs known =>
      obtain ⟨nonempty, inside, first⟩ := (joinedRule_of_mem legible (hasRule_draft.mp known)).apart
      obtain ⟨before, behind, joint⟩ := List.isChain_append.mp ih
      obtain ⟨follows, after⟩ := List.isChain_cons.mp behind
      rw [List.append_assoc]
      refine List.isChain_append.mpr ⟨before, List.isChain_append.mpr ⟨inside, after, ?_⟩, ?_⟩
      · intro last _ next found
        exact Or.inr ((follows next found).resolve_left (by simp [Symbol.quiet]))
      · -- The symbol before is no device or function, or the rule starts with something that is none.
        intro last found next start
        rw [List.head?_append_of_ne_nil _ nonempty] at start
        rcases joint last found _ rfl with still | still | leads
        · exact Or.inl still
        · cases still
        · obtain ⟨opening, same, still⟩ := first leads
          obtain rfl := Option.some.inj (same.symm.trans start)
          exact Or.inr (Or.inl still)

/-- No two words of devices or functions stand side by side in a sentence of joined devices. -/
theorem isChain_of_generates (legible : s.Legible) {word : List Terminal} (generated : s.joined.draft.Generates word) :
    word.IsChain fun left right => (Symbol.terminal left).quiet = true ∨ (Symbol.terminal right).quiet = true := by
  rw [Draft.Generates, draft_start] at generated
  have apart := isChain_of_derives legible generated
  rw [List.isChain_map] at apart
  refine apart.imp fun left right still => ?_
  rcases still with still | still | leads
  · exact Or.inl still
  · exact Or.inr still
  · cases leads

theorem Legible.signed_word (legible : s.Legible) {function : TypedFunction} (known : function ∈ s.functions) :
    signed function.word = true := by
  obtain ⟨name, word, _⟩ := legible.functions function known
  simp [signed, word]

theorem Divides.of_quiet (legible : s.Legible) {terminal : Terminal} {part : List Terminal} (divides : s.Divides terminal part)
    (quiet : (Symbol.terminal terminal).quiet = true) : part = [terminal] := by
  cases divides with
  | function known => exact absurd ⟨_, rfl, legible.signed_word known⟩ (not_signed_of_quiet quiet)
  | device device => exact absurd quiet (by simp [plain_joined_device])
  | other => rfl

/-- Where devices are divided no three words in a row are devices or functions. -/
theorem sparse_of_divides (legible : s.Legible) {word : List Terminal} {parts : List (List Terminal)}
    (divides : List.Forall₂ s.Divides word parts)
    (apart : word.IsChain fun left right => (Symbol.terminal left).quiet = true ∨ (Symbol.terminal right).quiet = true) :
    Sparse Terminal.signed parts.flatten := by
  induction divides with
  | nil => exact trivial
  | @cons terminal part word parts here later ih =>
    obtain ⟨follows, apart⟩ := List.isChain_cons.mp apart
    have sparse := ih apart
    rw [List.flatten_cons]
    by_cases quiet : (Symbol.terminal terminal).quiet = true
    · obtain rfl := here.of_quiet legible quiet
      exact sparse.cons_of_not (not_signed_of_quiet quiet)
    · -- What stands behind a device or a function is neither.
      have clear : ∀ next ∈ parts.flatten.head?, ¬ next.signed := by
        intro next found
        cases later with
        | nil => cases found
        | @cons second _ _ _ here =>
          have still := (follows second rfl).resolve_left quiet
          obtain rfl := here.of_quiet legible still
          obtain rfl := Option.some.inj found
          exact not_signed_of_quiet still
      cases here with
      | function => exact sparse.cons_cons clear
      | device => exact sparse.cons clear
      | other still => exact absurd still quiet

end Schema

end CommandLang
