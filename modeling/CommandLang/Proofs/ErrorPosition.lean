import CommandLang.Proofs.Termination
import Mathlib.Order.Bounds.Defs

/-! Where an error is found. A machine shifts a token only if what it has shifted still begins a sequence of the
language, and before it finds an error it looks at one token behind that. It would have done the same on
every sequence with these tokens at its beginning, so no such sequence is accepted. -/

namespace CommandLang

/-- The first place at which a sequence can no longer be continued to one of the language, and the token there. -/
structure Draft.FirstError (d : Draft) (word : List Terminal) (tokens : List Nat) (position token : Nat) : Prop where
  longest : IsGreatest {length | length ≤ word.length ∧ d.Viable (word.take length)} position
  here : tokens[position]? = some token ∧ ¬ d.Viable (word.take (position + 1)) ∨
    position = word.length ∧ token = Token.eos

def Config.before (c : Config) (rest : List Leaf) : Config := { c with rest }

namespace Automaton

variable {a : Automaton} {g : Numbered} {c d e f : Config} {leaves rest : List Leaf} {error : ParseError}

theorem not_acts_of_accepted (step : a.step c = .accepted d) : ¬ a.Acts c e := by
  intro acts
  rcases acts with other | other
  · cases step.symm.trans other
  · cases step.symm.trans other

theorem not_acts_of_rejected (step : a.step c = .rejected error) : ¬ a.Acts c d := by
  intro acts
  rcases acts with other | other
  · cases step.symm.trans other
  · cases step.symm.trans other

theorem end_unique (first : Relation.ReflTransGen a.Acts c d) (second : Relation.ReflTransGen a.Acts c e)
    (ends : ∀ f, ¬ a.Acts d f) (ends' : ∀ f, ¬ a.Acts e f) : d = e := by
  rcases Relation.ReflTransGen.total_of_right_unique a.acts_unique first second with path | path
  · rcases Relation.ReflTransGen.cases_head path with same | ⟨f, acts, _⟩
    · exact same
    · exact absurd acts (ends f)
  · rcases Relation.ReflTransGen.cases_head path with same | ⟨f, acts, _⟩
    · exact same.symm
    · exact absurd acts (ends' f)

section Lookahead

/-! A machine looks at the next token only, so what stands behind it can be replaced. -/

variable (same : rest.head? = c.rest.head?)

include same

theorem next_before : (c.before rest).next = c.next := by
  simp only [Config.before, Config.next, List.headD_eq_head?_getD, same]

theorem shifted_before (step : a.step c = .shifted d) : a.step (c.before rest) = .shifted (d.before rest.tail) := by
  obtain ⟨next, acts, rfl⟩ := step_eq_shifted.mp step
  refine step_eq_shifted.mpr ⟨next, ?_, ?_⟩
  · rwa [next_before same]
  · rw [next_before same]
    rfl

theorem reduced_before (step : a.step c = .reduced d) : a.step (c.before rest) = .reduced (d.before rest) := by
  obtain ⟨rule, production, next, acts, known, leads, rfl⟩ := step_eq_reduced.mp step
  refine step_eq_reduced.mpr ⟨rule, production, next, ?_, known, leads, rfl⟩
  rwa [next_before same]

theorem accepted_before (step : a.step c = .accepted d) : a.step (c.before rest) = .accepted (d.before rest) := by
  obtain ⟨acts, rfl⟩ := step_eq_accepted.mp step
  refine step_eq_accepted.mpr ⟨?_, rfl⟩
  rwa [next_before same]

theorem not_acts_before (ends : ∀ d, ¬ a.Acts c d) : ¬ a.Acts (c.before rest) d := by
  intro acts
  rcases acts with step | step
  · exact ends _ (Or.inl (shifted_before (c := c.before rest) same.symm step))
  · exact ends _ (Or.inr (reduced_before (c := c.before rest) same.symm step))

end Lookahead

section Reached

variable (table : a.Tabulates g) (lawful : g.Lawful) (path : Relation.ReflTransGen a.Acts (.initial leaves) c)

include table lawful path

theorem rest_eq_drop : c.position ≤ leaves.length ∧ c.rest = leaves.drop c.position := by
  induction path with
  | refl => exact ⟨Nat.zero_le _, rfl⟩
  | @tail c d path acts ih =>
    obtain ⟨inside, earlier⟩ := ih
    rcases acts with step | step
    · have lengths := congrArg List.length ((Parsed.reaches table lawful path).rest_of_shifted table step)
      rw [earlier, List.length_drop, List.length_cons] at lengths
      obtain ⟨_, _, rfl⟩ := step_eq_shifted.mp step
      refine ⟨show c.position + 1 ≤ leaves.length by omega, ?_⟩
      rw [← List.tail_drop, earlier]
    · obtain ⟨_, _, _, _, _, _, rfl⟩ := step_eq_reduced.mp step
      exact ⟨inside, earlier⟩

variable {first : Leaf} {more : List Leaf}

theorem getElem?_position (next : c.rest = first :: more) : leaves[c.position]? = some first := by
  rw [← List.head?_drop, ← (rest_eq_drop table lawful path).2, next, List.head?_cons]

theorem take_position (next : c.rest = first :: more) :
    leaves.take (c.position + 1) = leaves.take c.position ++ [first] := by
  rw [List.take_add_one, getElem?_position table lawful path next, Option.toList_some]

/-- What stands behind the next token has no part in how a configuration is reached. -/
theorem reaches_before (same : rest.head? = c.rest.head?) :
    Relation.ReflTransGen a.Acts (.initial (leaves.take c.position ++ rest)) (c.before rest) := by
  induction path generalizing rest with
  | refl => exact .refl
  | @tail c d path acts ih =>
    rcases acts with step | step
    · have taken := (Parsed.reaches table lawful path).rest_of_shifted table step
      have same : (c.next :: rest).head? = c.rest.head? := by rw [taken, List.head?_cons, List.head?_cons]
      have passed : d.position = c.position + 1 := by
        obtain ⟨_, _, rfl⟩ := step_eq_shifted.mp step
        rfl
      rw [passed, take_position table lawful path taken, List.append_assoc]
      exact (ih same).tail (Or.inl (shifted_before same step))
    · have unread : d.rest = c.rest ∧ d.position = c.position := by
        obtain ⟨_, _, _, _, _, _, rfl⟩ := step_eq_reduced.mp step
        exact ⟨rfl, rfl⟩
      rw [unread.1] at same
      rw [unread.2]
      exact (ih same).tail (Or.inr (reduced_before same step))

/-- Where a machine finds an error no tree has the tokens so far and the next one as its first leaves. -/
theorem not_begins_of_rejected (step : a.step c = .rejected error) (next : c.rest = first :: more) {tree : Forest}
    (root : tree.Of g [.nonterminal g.start]) (after : List Leaf) :
    tree.leaves ≠ leaves.take (c.position + 1) ++ after := by
  intro whole
  rw [take_position table lawful path next, List.append_assoc, List.singleton_append] at whole
  obtain ⟨e, f, run, accepts, _⟩ := root.accepts table (root.named lawful (by simp))
  rw [whole] at run
  have same : (first :: after).head? = c.rest.head? := by rw [next, List.head?_cons, List.head?_cons]
  have stuck : ∀ d, ¬ a.Acts (c.before (first :: after)) d := fun _ =>
    not_acts_before same fun _ => not_acts_of_rejected step
  obtain rfl := end_unique run (reaches_before table lawful path same) (fun _ => not_acts_of_accepted accepts) stuck
  cases step.symm.trans (accepted_before (c := c.before (first :: after)) same.symm accepts)

end Reached

end Automaton

namespace Grammar

variable {g : Grammar} {a : Automaton} {c : Config} {leaves : List Leaf} {word : List Terminal}

theorem viable_take_iff (numbered : a.grammar = g.number) (named : a.Names g.toDraft leaves word) {length : Nat} :
    g.Viable (word.take length) ↔ ∃ (after : List Leaf) (tree : Forest),
      tree.Of g.number [.nonterminal g.number.start] ∧ tree.leaves = leaves.take length ++ after :=
  viable_iff (tokens_of_names numbered (List.forall₂_take length named))

theorem parses_iff (table : a.Tabulates g.number) (named : a.Names g.toDraft leaves word) (order : Order) :
    (∃ events, a.parse order leaves = .ok events) ↔ g.Generates word := by
  have fits := (exists_names_iff table.grammar).mp ⟨word, named⟩
  rw [generates_iff_forest table.grammar named]
  simp only [Automaton.parse_eq_ok_iff table g.number_lawful]
  refine ⟨?_, ?_⟩
  · intro ⟨_, _, forest, root, whole, _⟩
    exact ⟨forest, root, whole⟩
  · intro ⟨forest, root, whole⟩
    exact ⟨_, fits, forest, root, whole, rfl⟩

section Reached

variable (table : a.Tabulates g.number) (named : a.Names g.toDraft leaves word)
  (path : Relation.ReflTransGen a.Acts (.initial leaves) c)

include table named path

theorem viable_of_reaches (productive : g.Productive) : g.Viable (word.take c.position) := by
  have parsed := Automaton.Parsed.reaches table g.number_lawful path
  obtain ⟨seen, after, tree, split, root, whole, _⟩ :=
    parsed.exists_tree table g.number_lawful (number_productive productive)
  have front : leaves.take c.position = seen := by
    have rest := (Automaton.rest_eq_drop table g.number_lawful path).2
    rw [rest] at split
    exact List.append_cancel_right ((List.take_append_drop ..).trans split)
  exact (viable_take_iff table.grammar named).mpr ⟨after, tree, root, by rw [whole, front]⟩

theorem not_viable_of_rejected {error : ParseError} (step : a.step c = .rejected error)
    (more : c.position < word.length) : ¬ g.Viable (word.take (c.position + 1)) := by
  intro viable
  obtain ⟨after, tree, root, whole⟩ := (viable_take_iff table.grammar named).mp viable
  obtain ⟨_, rest⟩ := Automaton.rest_eq_drop table g.number_lawful path
  rw [← named.length_eq] at more
  rw [List.drop_eq_getElem_cons more] at rest
  exact Automaton.not_begins_of_rejected table g.number_lawful path step rest root after whole

theorem firstError_of_rejected (productive : g.Productive) {error : ParseError} (step : a.step c = .rejected error) :
    g.FirstError word (leaves.map Leaf.token) c.position c.next.token := by
  have lengths := named.length_eq
  obtain ⟨inside, rest⟩ := Automaton.rest_eq_drop table g.number_lawful path
  rw [lengths] at inside
  refine ⟨⟨⟨inside, viable_of_reaches table named path productive⟩, ?_⟩, ?_⟩
  · intro length ⟨short, viable⟩
    apply Nat.le_of_not_lt
    intro longer
    apply not_viable_of_rejected table named path step (Nat.lt_of_lt_of_le longer short)
    exact viable.of_prefix (List.take_prefix_take_left longer)
  · rcases Nat.lt_or_eq_of_le inside with more | last
    · refine Or.inl ⟨?_, not_viable_of_rejected table named path step more⟩
      rw [← lengths] at more
      rw [List.drop_eq_getElem_cons more] at rest
      rw [List.getElem?_map, Automaton.getElem?_position table g.number_lawful path rest, Config.next, rest]
      rfl
    · refine Or.inr ⟨last, ?_⟩
      rw [Config.next, rest, last, ← lengths, List.drop_length]
      rfl

end Reached

/-- If every nonterminal derives something, the machine of a grammar stops at the first error. It ends on every
sequence whose leaves carry what their tokens ask for, accepts it if it is generated, and else its answer is the
first place at which the sequence cannot be continued to one that is. No token there is ever shifted. -/
theorem stops_at_first_error (built : g.automaton = .ok a) (productive : g.Productive) (order : Order)
    (named : a.Names g.toDraft leaves word) :
    (∃ c, Relation.ReflTransGen a.Acts (.initial leaves) c ∧
      (g.Generates word → (∃ d, a.step c = .accepted d) ∧ ∃ events, a.parse order leaves = .ok events) ∧
      (¬ g.Generates word → ∃ position token state, a.step c = .rejected (.unexpectedToken position token state) ∧
        a.parse order leaves = .error (.unexpectedToken position token state) ∧
        g.FirstError word (leaves.map Leaf.token) position token)) ∧
    ∀ c, Relation.ReflTransGen a.Acts (.initial leaves) c → g.Viable (word.take c.position) := by
  have table := automaton_tabulates built
  have fits := (exists_names_iff table.grammar).mp ⟨word, named⟩
  refine ⟨?_, fun c path => viable_of_reaches table named path productive⟩
  obtain ⟨c, path, ended⟩ := Automaton.Parsed.initial.run_ends table g.number_lawful (number_productive productive)
    (Nat.lt_succ_self leaves.length)
  rw [← Automaton.parseBottomUp_eq_run fits] at ended
  refine ⟨c, path, ?_⟩
  rcases ended with ⟨d, step, parsed⟩ | ⟨error, step, parsed⟩
  · have generated := (parses_iff table named .bottomUp).mp ⟨_, parsed⟩
    exact ⟨fun _ => ⟨⟨d, step⟩, (parses_iff table named order).mpr generated⟩, absurd generated⟩
  · have failed : a.parse order leaves = .error error := by
      cases order with
      | bottomUp => exact parsed
      | topDown => rw [Automaton.parse, parsed, Except.map]
    have located := firstError_of_rejected table named path productive step
    obtain rfl := Automaton.error_of_rejected step
    refine ⟨?_, fun _ => ⟨_, _, _, step, failed, located⟩⟩
    intro generated
    obtain ⟨events, parsed'⟩ := (parses_iff table named order).mpr generated
    cases failed.symm.trans parsed'

theorem stops_at_first_error_errand : ∃ a, errand.automaton = .ok a ∧ errand.Productive ∧
    a.Names errand.toDraft [⟨3, .none⟩, ⟨4, .none⟩, ⟨6, .span 2 3⟩] [.fixed "send", .fixed "to", .copy "quote"] ∧
    a.parse .topDown [⟨3, .none⟩, ⟨4, .none⟩, ⟨6, .span 2 3⟩] = .error (.unexpectedToken 2 6 4) ∧
    errand.FirstError [.fixed "send", .fixed "to", .copy "quote"] [3, 4, 6] 2 6 := by
  obtain ⟨a, built⟩ := errand_automaton
  have named : a.Names errand.toDraft [⟨3, .none⟩, ⟨4, .none⟩, ⟨6, .span 2 3⟩]
      [.fixed "send", .fixed "to", .copy "quote"] := by
    rw [Automaton.Names, (automaton_tabulates built).grammar]
    exact .cons ⟨by decide +kernel, .fixed⟩ (.cons ⟨by decide +kernel, .fixed⟩
      (.cons ⟨by decide +kernel, .copy (by decide)⟩ .nil))
  have answer : (errand.automaton.toOption.map fun a => a.parse .topDown [⟨3, .none⟩, ⟨4, .none⟩, ⟨6, .span 2 3⟩]) =
      some (.error (.unexpectedToken 2 6 4)) := by decide +kernel
  rw [built] at answer
  have failed := Option.some.inj answer
  obtain ⟨⟨c, _, accepts, stops⟩, _⟩ := stops_at_first_error built errand_productive .topDown named
  have foreign : ¬ errand.Generates [.fixed "send", .fixed "to", .copy "quote"] := by
    intro generated
    obtain ⟨_, events, parsed⟩ := accepts generated
    cases failed.symm.trans parsed
  obtain ⟨position, token, state, _, failed', first⟩ := stops foreign
  obtain ⟨rfl, rfl, _⟩ := ParseError.unexpectedToken.inj (Except.error.inj (failed'.symm.trans failed))
  exact ⟨a, built, errand_productive, named, failed, first⟩

end Grammar

end CommandLang
