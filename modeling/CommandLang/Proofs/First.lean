import CommandLang.Proofs.Nullable

/-! First sets are exact: a token is in the set of a nonterminal if the nonterminal derives a sequence
that begins with it. Every token that a pass adds begins such a sequence. When a pass adds none, the
tokens that can begin the right-hand side of a rule are in the set of its left-hand side, so they are
kept on the way from the end of a derivation to its start. -/

namespace CommandLang.Numbered

variable {g : Numbered}

/-- Visits that only add to sets, and only tokens of the grammar that belong there, come to an end. Then no visit
changes anything. -/
theorem passes_settle {visit : Array IdSet → Rule → Array IdSet} (belongs : Nat → Nat → Prop)
    (fitting : ∀ sets, IdSet.Fits g.names.size g.tokens sets → ∀ rule ∈ g.ruleList, IdSet.Fits g.names.size g.tokens (visit sets rule))
    (keeps : ∀ sets rule, ∀ a t : Nat, t ∈ (sets[a]?).getD ∅ → t ∈ ((visit sets rule)[a]?).getD ∅)
    (sound : ∀ sets, (∀ a t : Nat, t ∈ (sets[a]?).getD ∅ → belongs a t) → ∀ rule ∈ g.ruleList,
      ∀ a t : Nat, t ∈ ((visit sets rule)[a]?).getD ∅ → belongs a t) :
    Settles (g.ruleList.foldl visit) (Array.replicate g.names.size ∅) (g.passes (g.ruleList.foldl visit)) ∧
      IdSet.Fits g.names.size g.tokens (g.passes (g.ruleList.foldl visit)) ∧
      (∀ a t : Nat, t ∈ ((g.passes (g.ruleList.foldl visit))[a]?).getD ∅ → belongs a t) ∧
      ∀ rule ∈ g.ruleList, visit (g.passes (g.ruleList.foldl visit)) rule = g.passes (g.ruleList.foldl visit) := by
  have kept : ∀ sets, IdSet.Fits g.names.size g.tokens sets ∧ (∀ a t : Nat, t ∈ (sets[a]?).getD ∅ → belongs a t) →
      ∀ rule ∈ g.ruleList, IdSet.Fits g.names.size g.tokens (visit sets rule) ∧
        ∀ a t : Nat, t ∈ ((visit sets rule)[a]?).getD ∅ → belongs a t :=
    fun sets ⟨fits, owned⟩ rule known => ⟨fitting sets fits rule known, sound sets owned rule known⟩
  have grows : ∀ sets, IdSet.Fits g.names.size g.tokens sets ∧ (∀ a t : Nat, t ∈ (sets[a]?).getD ∅ → belongs a t) →
      ∀ rule ∈ g.ruleList, visit sets rule ≠ sets →
        IdSet.fill g.names.size g.tokens sets < IdSet.fill g.names.size g.tokens (visit sets rule) :=
    fun sets ⟨fits, _⟩ rule known => fits.fill_lt (fitting sets fits rule known) fun a t => keeps sets rule a t
  obtain ⟨settles, ⟨fits, owned⟩, idle⟩ :=
    settles_passes (fun _ _ => IdSet.fill_le) kept grows ⟨.replicate, by simp⟩ (Nat.le_add_left ..)
  exact ⟨settles, fits, owned, idle⟩

theorem mem_tokens_of_mem {rule : Rule} (known : rule ∈ g.ruleList) {t : Nat} (used : .terminal t ∈ rule.rhs) :
    t ∈ g.tokens :=
  List.mem_flatMap.mpr ⟨rule, known, List.mem_filterMap.mpr ⟨_, used, rfl⟩⟩

theorem mem_tokens_of_mem_firstOf {nullable : IdSet} {first : Array IdSet} (fits : IdSet.Fits g.names.size g.tokens first)
    {symbols : NumberedSymbols} (used : ∀ t, .terminal t ∈ symbols → t ∈ g.tokens) :
    ∀ t ∈ firstOf nullable first symbols, t ∈ g.tokens := by
  induction symbols with
  | nil => simp [firstOf]
  | cons symbol rest ih =>
    intro t member
    cases symbol with
    | terminal u =>
      obtain rfl : t = u := by simpa [firstOf] using member
      exact used t (List.mem_cons_self ..)
    | nonterminal a =>
      rw [firstOf] at member
      split at member
      · rcases IdSet.mem_union.mp member with here | later
        · exact fits.listed a t here
        · exact ih (fun t inside => used t (List.mem_cons_of_mem _ inside)) t later
      · exact fits.listed a t member

variable (defined : g.Defined)

include defined

theorem mem_firstOf_cons_nonterminal {first : Array IdSet} {a t : Nat} {rest : NumberedSymbols} :
    t ∈ firstOf g.nullable first (.nonterminal a :: rest) ↔
      t ∈ (first[a]?).getD ∅ ∨ (Derives g.HasRule [.nonterminal a] [] ∧ t ∈ firstOf g.nullable first rest) := by
  rw [firstOf, ← mem_nullable defined]
  split
  next gone => simp [gone]
  next stays => simp [stays]

private theorem mem_firstOf_append {first : Array IdSet} {t : Nat} {front back : NumberedSymbols} :
    t ∈ firstOf g.nullable first (front ++ back) ↔
      t ∈ firstOf g.nullable first front ∨ (Derives g.HasRule front [] ∧ t ∈ firstOf g.nullable first back) := by
  induction front with
  | nil =>
    have nothing : Derives g.HasRule [] [] := .refl
    simp [firstOf, nothing]
  | cons symbol rest ih =>
    rw [← List.singleton_append, Derives.append_nil_iff]
    cases symbol with
    | terminal u =>
      have solid : ¬ Derives g.HasRule [.terminal u] [] := fun derived => by cases Derives.eq_of_terminals [u] derived
      simp [firstOf, solid]
    | nonterminal a =>
      simp only [List.cons_append, List.nil_append, mem_firstOf_cons_nonterminal defined, ih]
      tauto

private theorem begins_of_mem_firstOf {first : Array IdSet}
    (leads : ∀ a t : Nat, t ∈ (first[a]?).getD ∅ → ∃ rest, Derives g.HasRule [.nonterminal a] (.terminal t :: rest))
    {symbols : NumberedSymbols} {t : Nat} (member : t ∈ firstOf g.nullable first symbols) :
    ∃ rest, Derives g.HasRule symbols (.terminal t :: rest) := by
  induction symbols with
  | nil => simp [firstOf] at member
  | cons symbol tail ih =>
    cases symbol with
    | terminal u =>
      obtain rfl : t = u := by simpa [firstOf] using member
      exact ⟨tail, .refl⟩
    | nonterminal a =>
      rcases (mem_firstOf_cons_nonterminal defined).mp member with here | ⟨gone, later⟩
      · obtain ⟨rest, derived⟩ := leads a t here
        exact ⟨rest ++ tail, derived.append_right tail⟩
      · obtain ⟨rest, derived⟩ := ih later
        exact ⟨rest, gone.append derived⟩

/-- The passes come to an end. Then every token of a set begins what the nonterminal derives, and what can begin the
right-hand side of a rule is in the set of its left-hand side. -/
private theorem firstSets_closed : Settles (g.firstStep g.nullable) (Array.replicate g.names.size ∅) (g.firstSets g.nullable) ∧
    IdSet.Fits g.names.size g.tokens (g.firstSets g.nullable) ∧
    (∀ a t : Nat, t ∈ ((g.firstSets g.nullable)[a]?).getD ∅ → ∃ rest, Derives g.HasRule [.nonterminal a] (.terminal t :: rest)) ∧
    ∀ a rhs, g.HasRule a rhs → ∀ t ∈ firstOf g.nullable (g.firstSets g.nullable) rhs,
      t ∈ ((g.firstSets g.nullable)[a]?).getD ∅ := by
  have fitting : ∀ first, IdSet.Fits g.names.size g.tokens first → ∀ rule ∈ g.ruleList,
      IdSet.Fits g.names.size g.tokens (visitFirst g.nullable first rule) := fun first fits rule known =>
    fits.extend (mem_tokens_of_mem_firstOf fits fun t => mem_tokens_of_mem known)
  have sound : ∀ first, (∀ a t : Nat, t ∈ (first[a]?).getD ∅ → ∃ rest, Derives g.HasRule [.nonterminal a] (.terminal t :: rest)) →
      ∀ rule ∈ g.ruleList, ∀ a t : Nat, t ∈ ((visitFirst g.nullable first rule)[a]?).getD ∅ →
        ∃ rest, Derives g.HasRule [.nonterminal a] (.terminal t :: rest) := by
    intro first leads rule known a t member
    rcases IdSet.mem_extend.mp member with old | ⟨rfl, _, new⟩
    · exact leads a t old
    · obtain ⟨rest, derived⟩ := begins_of_mem_firstOf defined leads new
      exact ⟨rest, (Derives.of_rule (hasRule_iff.mpr known)).trans derived⟩
  obtain ⟨settles, fits, leads, idle⟩ := passes_settle _ fitting (fun _ _ _ _ old => IdSet.mem_extend.mpr (Or.inl old)) sound
  refine ⟨settles, fits, leads, fun a rhs ruled t member => ?_⟩
  have idle : visitFirst g.nullable (g.firstSets g.nullable) ⟨a, rhs⟩ = g.firstSets g.nullable := idle _ (hasRule_iff.mp ruled)
  have inside : a < (g.firstSets g.nullable).size :=
    Nat.lt_of_lt_of_eq (defined.named _ (hasRule_iff.mp ruled)) fits.size.symm
  rw [← idle]
  exact IdSet.mem_extend.mpr (Or.inr ⟨rfl, inside, member⟩)

theorem firstSets_settle : Settles (g.firstStep g.nullable) (Array.replicate g.names.size ∅) (g.firstSets g.nullable) :=
  (firstSets_closed defined).1

theorem fits_firstSets : IdSet.Fits g.names.size g.tokens (g.firstSets g.nullable) := (firstSets_closed defined).2.1

theorem mem_firstOf {symbols : NumberedSymbols} {t : Nat} :
    t ∈ firstOf g.nullable (g.firstSets g.nullable) symbols ↔
      ∃ rest, Derives g.HasRule symbols (.terminal t :: rest) := by
  obtain ⟨_, _, leads, closed⟩ := firstSets_closed defined
  constructor
  · exact begins_of_mem_firstOf defined leads
  · rintro ⟨rest, derived⟩
    induction derived using Relation.ReflTransGen.head_induction_on with
    | refl => simp [firstOf]
    | head step _ ih =>
      cases step with
      | @intro front back a rhs ruled =>
        rw [List.append_assoc, mem_firstOf_append defined, mem_firstOf_append defined] at ih
        rw [mem_firstOf_append defined, mem_firstOf_cons_nonterminal defined]
        rcases ih with before | ⟨gone, inside | ⟨erased, later⟩⟩
        · exact Or.inl before
        · exact Or.inr ⟨gone, Or.inl (closed a rhs ruled t inside)⟩
        · exact Or.inr ⟨gone, Or.inr ⟨(Derives.of_rule ruled).trans erased, later⟩⟩

theorem mem_first {a t : Nat} :
    t ∈ ((g.firstSets g.nullable)[a]?).getD ∅ ↔ ∃ rest, Derives g.HasRule [.nonterminal a] (.terminal t :: rest) := by
  rw [← mem_firstOf defined, mem_firstOf_cons_nonterminal defined]
  simp [firstOf]

end CommandLang.Numbered
