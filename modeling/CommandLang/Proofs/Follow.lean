import CommandLang.Proofs.First

/-! Follow sets are exact: a token is in the set of a nonterminal if some nonterminal of the grammar
derives a sequence in which the token comes right behind it. A rule is gone through from its end with
the tokens that can come next, and these are the ones that can begin what has been passed or, if it
can be empty, those behind the left-hand side. -/

namespace CommandLang

def Numbered.Follows (g : Numbered) (b token : Nat) : Prop :=
  ∃ a front back, Derives g.HasRule [.nonterminal a] (front ++ .nonterminal b :: .terminal token :: back)

namespace Numbered

variable {g : Numbered}

private def Encloses (g : Numbered) (a b : Nat) : Prop :=
  ∃ front rest, g.HasRule b (front ++ .nonterminal a :: rest) ∧ Derives g.HasRule rest []

/-- In some rule the token can come next behind `a`. -/
private def Precedes (g : Numbered) (a token : Nat) : Prop :=
  ∃ lhs front rest, g.HasRule lhs (front ++ .nonterminal a :: rest) ∧
    ∃ back, Derives g.HasRule rest (.terminal token :: back)

/-- Whatever is behind a nonterminal in a derived sequence, a token that begins it is found behind the
nonterminal or behind one that encloses it. -/
private theorem precedes_of_derives {a : Nat} {form : NumberedSymbols} (derived : Derives g.HasRule [.nonterminal a] form) :
    ∀ front b back token rest, form = front ++ .nonterminal b :: back →
      Derives g.HasRule back (.terminal token :: rest) →
      ∃ c, Relation.ReflTransGen g.Encloses b c ∧ g.Precedes c token := by
  induction derived with
  | refl =>
    intro front b back token rest whole begins
    have empty : back = [] := by
      cases front with
      | nil => exact (List.cons.inj whole).2.symm
      | cons first front => simp at whole
    subst empty
    cases begins.eq_nil
  | tail _ step ih =>
    cases step with
    | @intro left right lhs rhs known =>
      intro front b back token rest whole begins
      rw [List.append_assoc] at whole
      rcases append_cons_eq_append whole.symm with ⟨inner, rfl, rfl⟩ | ⟨inner, rfl, tail⟩
      · refine ih front b (inner ++ .nonterminal lhs :: right) token rest (by simp) ?_
        have rewritten := Relation.ReflTransGen.single (Rewrites.intro inner right known)
        exact rewritten.trans (by simpa using begins)
      rcases append_cons_eq_append tail.symm with ⟨last, rfl, rfl⟩ | ⟨last, rfl, rfl⟩
      · obtain ⟨first, second, both, near, far⟩ := begins.split
        cases first with
        | nil =>
          subst both
          obtain ⟨c, path, found⟩ := ih left lhs right token rest rfl far
          exact ⟨c, path.head ⟨inner, last, known, near⟩, found⟩
        | cons head first =>
          obtain ⟨rfl, _⟩ := List.cons.inj both
          exact ⟨b, .refl, lhs, inner, last, known, first, near⟩
      · exact ih (left ++ .nonterminal lhs :: last) b back token rest (by simp) begins

private theorem Precedes.follows {a token : Nat} (found : g.Precedes a token) : g.Follows a token := by
  obtain ⟨lhs, front, rest, known, back, derived⟩ := found
  have inner := derived.append_left (front ++ [.nonterminal a])
  exact ⟨lhs, front, back, (Derives.of_rule known).trans (by simpa using inner)⟩

private theorem Encloses.follows {a b token : Nat} (encloses : g.Encloses a b) (follows : g.Follows b token) :
    g.Follows a token := by
  obtain ⟨front, rest, known, erased⟩ := encloses
  obtain ⟨source, left, right, derived⟩ := follows
  refine ⟨source, left ++ front, right, ?_⟩
  have opened := derived.rewrite known
  have closed := (erased.append_right (.terminal token :: right)).append_left (left ++ front ++ [.nonterminal a])
  exact opened.trans (by simpa using closed)

private theorem follows_iff {a token : Nat} :
    g.Follows a token ↔ ∃ b, Relation.ReflTransGen g.Encloses a b ∧ g.Precedes b token := by
  constructor
  · rintro ⟨source, front, back, derived⟩
    exact precedes_of_derives derived front a _ token back rfl .refl
  · rintro ⟨b, path, found⟩
    induction path using Relation.ReflTransGen.head_induction_on with
    | refl => exact found.follows
    | head encloses _ ih => exact encloses.follows ih

theorem Follows.used {a token : Nat} (follows : g.Follows a token) :
    ∃ lhs rhs, g.HasRule lhs rhs ∧ .nonterminal a ∈ rhs := by
  obtain ⟨b, path, found⟩ := follows_iff.mp follows
  rcases Relation.ReflTransGen.cases_head path with rfl | ⟨c, encloses, _⟩
  · obtain ⟨lhs, front, rest, known, _⟩ := found
    exact ⟨lhs, _, known, by simp⟩
  · obtain ⟨front, rest, known, _⟩ := encloses
    exact ⟨c, _, known, by simp⟩

variable (defined : g.Defined)

include defined

/-- The tokens that are carried through symbols from behind: those that can begin the symbols, and those behind them if
the symbols can be erased. -/
private theorem mem_followFrom_snd {follow : Array IdSet} {last : IdSet} {symbols : NumberedSymbols} {t : Nat} :
    t ∈ (followFrom g.nullable (g.firstSets g.nullable) follow last symbols).2 ↔
      (∃ rest, Derives g.HasRule symbols (.terminal t :: rest)) ∨ (Derives g.HasRule symbols [] ∧ t ∈ last) := by
  rw [← mem_firstOf defined]
  induction symbols with
  | nil =>
    have nothing : Derives g.HasRule [] [] := .refl
    simp [followFrom, firstOf, nothing]
  | cons symbol rest ih =>
    rw [← List.singleton_append, Derives.append_nil_iff, List.singleton_append]
    cases symbol with
    | terminal u =>
      have solid : ¬ Derives g.HasRule [.terminal u] [] := fun derived => by cases Derives.eq_of_terminals [u] derived
      simp [followFrom, firstOf, solid]
    | nonterminal a =>
      rw [mem_firstOf_cons_nonterminal defined, ← mem_nullable defined, followFrom]
      split
      next gone => simp [gone, ih, or_assoc]
      next stays => simp [stays]

omit defined

private theorem size_followFrom {nullable : IdSet} {first follow : Array IdSet} {last : IdSet} (symbols : NumberedSymbols) :
    (followFrom nullable first follow last symbols).1.size = follow.size := by
  induction symbols with
  | nil => rfl
  | cons symbol rest ih => cases symbol <;> simpa [followFrom, IdSet.extend] using ih

include defined

/-- What is added on the way: behind each occurrence of a nonterminal, the tokens that are carried there. -/
private theorem mem_followFrom_fst {follow : Array IdSet} {last : IdSet} {symbols : NumberedSymbols} {b t : Nat} :
    t ∈ ((followFrom g.nullable (g.firstSets g.nullable) follow last symbols).1[b]?).getD ∅ ↔ t ∈ (follow[b]?).getD ∅ ∨
      (b < follow.size ∧ ∃ front rest, symbols = front ++ .nonterminal b :: rest ∧
        ((∃ back, Derives g.HasRule rest (.terminal t :: back)) ∨ (Derives g.HasRule rest [] ∧ t ∈ last))) := by
  induction symbols with
  | nil => simp [followFrom]
  | cons symbol tail ih =>
    have places : ∀ {offers : NumberedSymbols → Prop}, (∃ front rest, symbol :: tail = front ++ .nonterminal b :: rest ∧ offers rest) ↔
        (symbol = .nonterminal b ∧ offers tail) ∨ ∃ front rest, tail = front ++ .nonterminal b :: rest ∧ offers rest := by
      intro offers
      constructor
      · rintro ⟨front, rest, whole, offered⟩
        rcases List.cons_eq_append_iff.mp whole with ⟨_, same⟩ | ⟨inner, _, later⟩
        · obtain ⟨rfl, rfl⟩ := List.cons.inj same
          exact Or.inl ⟨rfl, offered⟩
        · exact Or.inr ⟨inner, rest, later, offered⟩
      · rintro (⟨rfl, offered⟩ | ⟨front, rest, rfl, offered⟩)
        · exact ⟨[], tail, rfl, offered⟩
        · exact ⟨symbol :: front, rest, rfl, offered⟩
    rw [places]
    cases symbol with
    | terminal u => simpa [followFrom] using ih
    | nonterminal a =>
      rw [followFrom, IdSet.mem_extend, size_followFrom, ih, mem_followFrom_snd defined, Symbol.nonterminal.injEq,
        and_left_comm, or_assoc, ← and_or_left]
      exact or_congr_right (and_congr_right fun _ => or_comm)

private theorem fits_visitFollow {follow : Array IdSet} (fits : IdSet.Fits g.names.size g.tokens follow) {rule : Rule}
    (known : rule ∈ g.ruleList) :
    IdSet.Fits g.names.size g.tokens (visitFollow g.nullable (g.firstSets g.nullable) follow rule) := by
  refine ⟨(size_followFrom _).trans fits.size, fun a t member => ?_⟩
  rcases (mem_followFrom_fst defined).mp member with old | ⟨_, front, rest, whole, ⟨back, derived⟩ | ⟨_, behind⟩⟩
  · exact fits.listed a t old
  · refine mem_tokens_of_mem_firstOf (fits_firstSets defined) (fun u used => mem_tokens_of_mem known ?_) t
      ((mem_firstOf defined).mpr ⟨back, derived⟩)
    rw [whole]
    exact List.mem_append_right _ (List.mem_cons_of_mem _ used)
  · exact fits.listed _ t behind

private theorem visitFollow_sound {follow : Array IdSet} (follows : ∀ a t : Nat, t ∈ (follow[a]?).getD ∅ → g.Follows a t)
    {rule : Rule} (known : rule ∈ g.ruleList) (a t : Nat)
    (member : t ∈ ((visitFollow g.nullable (g.firstSets g.nullable) follow rule)[a]?).getD ∅) : g.Follows a t := by
  rcases (mem_followFrom_fst defined).mp member with old | ⟨_, front, rest, whole, ⟨back, derived⟩ | ⟨erased, behind⟩⟩
  · exact follows a t old
  · exact Precedes.follows ⟨rule.lhs, front, rest, whole ▸ hasRule_iff.mpr known, back, derived⟩
  · exact Encloses.follows ⟨front, rest, whole ▸ hasRule_iff.mpr known, erased⟩ (follows _ t behind)

/-- The passes come to an end. Then every token of a set follows the nonterminal, and the sets have all that rules tell. -/
private theorem followSets_closed :
    Settles (g.followStep g.nullable (g.firstSets g.nullable)) (Array.replicate g.names.size ∅) g.lookahead.follow ∧
    (∀ a t : Nat, t ∈ (g.lookahead.follow[a]?).getD ∅ → g.Follows a t) ∧
    (∀ a t : Nat, g.Precedes a t → t ∈ (g.lookahead.follow[a]?).getD ∅) ∧
    ∀ a b t : Nat, g.Encloses a b → t ∈ (g.lookahead.follow[b]?).getD ∅ → t ∈ (g.lookahead.follow[a]?).getD ∅ := by
  have keeps : ∀ follow rule, ∀ a t : Nat, t ∈ (follow[a]?).getD ∅ →
      t ∈ ((visitFollow g.nullable (g.firstSets g.nullable) follow rule)[a]?).getD ∅ :=
    fun follow rule a t old => (mem_followFrom_fst defined).mpr (Or.inl old)
  obtain ⟨settles, fits, follows, idle⟩ := passes_settle _ (fun _ fits _ known => fits_visitFollow defined fits known) keeps
    (fun _ follows _ known => visitFollow_sound defined follows known)
  have told : ∀ {lhs front a rest t}, g.HasRule lhs (front ++ .nonterminal a :: rest) →
      ((∃ back, Derives g.HasRule rest (.terminal t :: back)) ∨
        (Derives g.HasRule rest [] ∧ t ∈ (g.lookahead.follow[lhs]?).getD ∅)) → t ∈ (g.lookahead.follow[a]?).getD ∅ := by
    intro lhs front a rest t known offered
    have inside : a < g.lookahead.follow.size :=
      Nat.lt_of_lt_of_eq (defined.lt_of_mem (hasRule_iff.mp known) (by simp)) fits.size.symm
    have idle : visitFollow g.nullable (g.firstSets g.nullable) g.lookahead.follow _ = g.lookahead.follow :=
      idle _ (hasRule_iff.mp known)
    rw [← idle]
    exact (mem_followFrom_fst defined).mpr (Or.inr ⟨inside, front, rest, rfl, offered⟩)
  refine ⟨settles, follows, ?_, ?_⟩
  · intro a t ⟨lhs, front, rest, known, begins⟩
    exact told known (Or.inl begins)
  · intro a b t ⟨front, rest, known, erased⟩ behind
    exact told known (Or.inr ⟨erased, behind⟩)

theorem followSets_settle :
    Settles (g.followStep g.nullable (g.firstSets g.nullable)) (Array.replicate g.names.size ∅) g.lookahead.follow :=
  (followSets_closed defined).1

theorem mem_follow {a token : Nat} :
    token ∈ (g.lookahead.follow[a]?).getD ∅ ↔ g.Follows a token := by
  obtain ⟨_, follows, precedes, encloses⟩ := followSets_closed defined
  refine ⟨follows a token, fun follows => ?_⟩
  obtain ⟨b, path, found⟩ := follows_iff.mp follows
  induction path using Relation.ReflTransGen.head_induction_on with
  | refl => exact precedes b token found
  | head first _ ih => exact encloses _ _ token first (ih (follows_iff.mpr ⟨b, ‹_›, found⟩))

end Numbered

end CommandLang
