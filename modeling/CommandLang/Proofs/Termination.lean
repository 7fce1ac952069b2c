import CommandLang.Proofs.Outcome
import CommandLang.Proofs.Trace
import CommandLang.Proofs.Viability

/-! A machine comes to an end if every nonterminal derives something. Whatever it has reduced is then the beginning
of a tree, and on the leaves of this tree it makes the same reductions on the way to an acceptance. How many
reductions a token can cause depends on the stack alone, so no other token causes more. A nonterminal that
derives nothing can make a machine reduce for ever. -/

namespace CommandLang

theorem Forest.Of.named {g : Numbered} {symbols : NumberedSymbols} {forest : Forest} (roots : forest.Of g symbols)
    (lawful : g.Lawful) (above : ∀ token, .terminal token ∈ symbols → Token.controls ≤ token) :
    ∀ leaf ∈ forest.leaves, leaf.token ≠ Token.eos := by
  induction roots with
  | nil => simp [leaves]
  | leaf _ ih =>
    intro leaf member
    rcases List.mem_cons.mp member with rfl | later
    · have high := above leaf.token (List.mem_cons_self ..)
      simp only [Token.controls, Token.eos] at high ⊢
      omega
    · exact ih (fun token used => above token (List.mem_cons_of_mem _ used)) leaf later
  | node known _ _ below later =>
    intro leaf member
    rcases List.mem_append.mp member with inside | beside
    · exact below (lawful.uncontrolled _ (Numbered.mem_ruleList_of_getElem? known)) leaf inside
    · exact later (fun token used => above token (List.mem_cons_of_mem _ used)) leaf beside

namespace Automaton

variable {a : Automaton} {g : Numbered} {c d e : Config} {leaves : List Leaf}

theorem parseBottomUp_eq_run (fits : ∀ leaf ∈ leaves, a.payloadFits leaf = true) :
    a.parseBottomUp leaves = a.run (leaves.length + 1) (.initial leaves) := by
  rw [parseBottomUp, leafFault?_eq_none.mpr fits]

/-- Before an acceptance the reductions on each token come to an end. -/
theorem exists_stop (path : Relation.ReflTransGen a.Acts c d) (accepts : a.step d = .accepted e) :
    ∃ last, a.Reductions c last ∧ ∀ next, a.step last ≠ .reduced next := by
  induction path using Relation.ReflTransGen.head_induction_on with
  | refl => exact ⟨d, .refl, by simp [accepts]⟩
  | @head c after acts _ ih =>
    rcases acts with step | step
    · exact ⟨c, .refl, by simp [step]⟩
    · obtain ⟨last, path, stops⟩ := ih
      exact ⟨last, .head step path, stops⟩

theorem Reductions.rest_eq (path : a.Reductions c d) : d.rest = c.rest := by
  induction path with
  | refl => rfl
  | tail _ step ih =>
    obtain ⟨_, _, _, _, _, _, rfl⟩ := step_eq_reduced.mp step
    exact ih

/-- Whatever reductions lead to is reduced again. -/
def Circles (a : Automaton) (c : Config) : Prop := ∀ d, a.Reductions c d → ∃ e, a.step d = .reduced e

theorem Circles.of_run {run : Nat → Config} (steps : ∀ n, a.step (run n) = .reduced (run (n + 1))) : a.Circles (run 0) := by
  intro d path
  have along : ∃ n, d = run n := by
    induction path with
    | refl => exact ⟨0, rfl⟩
    | tail _ step ih =>
      obtain ⟨n, rfl⟩ := ih
      exact ⟨n + 1, Step.reduced.inj (step.symm.trans (steps n))⟩
  obtain ⟨n, rfl⟩ := along
  exact ⟨_, steps n⟩

theorem Circles.settle (circles : a.Circles c) (limit : Nat) : ∃ d, a.settle limit c = .reduced d := by
  obtain ⟨d, path, settled⟩ := settle_cases limit c
  obtain ⟨e, step⟩ := circles d path
  rcases settled with settled | settled
  · exact ⟨d, settled⟩
  · exact ⟨e, settled.trans step⟩

namespace Parsed

theorem rest_of_shifted (parsed : a.Parsed g leaves c) (table : a.Tabulates g) (step : a.step c = .shifted d) :
    c.rest = c.next :: d.rest := by
  obtain ⟨_, _, stacked, _, _, _⟩ := parsed
  obtain ⟨next, acts, rfl⟩ := step_eq_shifted.mp step
  have passed := (stacked.shift table acts).1
  cases more : c.rest with
  | nil => exact absurd (by simp [Config.next, more]) passed
  | cons first rest => simp [Config.next, more]

variable (table : a.Tabulates g) (lawful : g.Lawful)

include table lawful

/-- On the leaves of some tree a machine comes to the same trace and goes on from there to an acceptance. -/
theorem exists_accepted (parsed : a.Parsed g leaves c) (productive : g.Productive) :
    ∃ (leaves' : List Leaf) (d e f : Config), Relation.ReflTransGen a.Acts (.initial leaves') d ∧ d.trace = c.trace ∧
      Relation.ReflTransGen a.Acts d e ∧ a.step e = .accepted f := by
  obtain ⟨_, _, tree, _, root, _, more, begins⟩ := parsed.exists_tree table lawful productive
  obtain ⟨e, f, path, accepts, listed⟩ := root.accepts table (root.named lawful (by simp))
  have ends : e.trace = more.reverse ++ c.trace := by
    obtain ⟨_, rfl⟩ := step_eq_accepted.mp accepts
    have body := List.append_cancel_right ((List.reverse_cons ..).symm.trans listed)
    rw [← List.reverse_inj, body, ← begins]
    simp
  obtain ⟨d, first, second, same⟩ := exists_between path rfl ends
  exact ⟨tree.leaves, d, e, f, first, same, second, accepts⟩

theorem settle_ne_reduced (parsed : a.Parsed g leaves c) (productive : g.Productive) :
    a.settle (a.reductionLimit c) c ≠ .reduced d := by
  intro settled
  obtain ⟨path, count⟩ := settle_eq_reduced_iff.mp settled
  obtain ⟨rules, added⟩ := path.exists_rules
  obtain ⟨leaves', d', e, f, run, same, rest, accepts⟩ :=
    (parsed.reductions table lawful path).exists_accepted table lawful productive
  obtain ⟨c', first, second, same'⟩ := exists_between run rfl (same.trans added)
  have parsed' := reaches table lawful first
  have limit : a.reductionLimit c' = a.reductionLimit c := by
    rw [reductionLimit, reductionLimit, parsed'.stack_eq parsed table same']
  have again : a.settle (a.reductionLimit c') c' = .reduced d' := by
    apply settle_eq_reduced_iff.mpr
    refine ⟨reductions_of_trace second (by rw [same, added, same']), ?_⟩
    rw [limit, same, same', count]
  obtain ⟨last, more, stops⟩ := exists_stop rest accepts
  obtain ⟨_, _, stacked, _⟩ := parsed'
  have ended := settle_eq table lawful stacked ((settle_eq_reduced_iff.mp again).1.trans more) stops
  exact stops d' (ended.symm.trans again)

/-- Reductions that use up their limit never end. -/
theorem circles_of_settle (parsed : a.Parsed g leaves c) (settled : a.settle (a.reductionLimit c) c = .reduced d) :
    a.Circles c := by
  obtain ⟨_, _, stacked, _⟩ := parsed
  intro last path
  by_contra stops
  have ended := settle_eq table lawful stacked path fun next step => stops ⟨next, step⟩
  exact stops ⟨d, ended.symm.trans settled⟩

/-- A run with enough rounds ends with an acceptance or with the error of some configuration that it comes to, or it is
given up where the reductions never end. -/
theorem run_cases (parsed : a.Parsed g leaves c) {rounds : Nat} (enough : c.rest.length < rounds) :
    ∃ d, Relation.ReflTransGen a.Acts c d ∧
      ((∃ e, a.step d = .accepted e ∧ a.run rounds c = .ok e.trace.reverse) ∨
        (∃ error, a.step d = .rejected error ∧ a.run rounds c = .error error) ∨
        (a.Circles d ∧ ∃ position token, a.run rounds c = .error (.endless position token))) := by
  induction rounds generalizing c with
  | zero => cases enough
  | succ rounds ih =>
    obtain ⟨d, path, settled⟩ := settle_cases (a.reductionLimit c) c
    rw [run]
    rcases settled with given | settled
    · exact ⟨c, .refl, Or.inr (Or.inr ⟨parsed.circles_of_settle table lawful given, d.position, d.next.token, by rw [given]⟩)⟩
    have acts := Reductions.acts path
    have parsed' := parsed.reductions table lawful path
    rw [settled]
    cases step : a.step d with
    | reduced e =>
      have circles := parsed.circles_of_settle table lawful (settled.trans step)
      exact ⟨c, .refl, Or.inr (Or.inr ⟨circles, e.position, e.next.token, rfl⟩)⟩
    | accepted e => exact ⟨d, acts, Or.inl ⟨e, step, rfl⟩⟩
    | rejected error => exact ⟨d, acts, Or.inr (Or.inl ⟨error, step, rfl⟩)⟩
    | shifted e =>
      have fewer : e.rest.length < rounds := by
        have taken := congrArg List.length (parsed'.rest_of_shifted table step)
        rw [Reductions.rest_eq path, List.length_cons] at taken
        omega
      obtain ⟨last, later, ended⟩ := ih (parsed'.shifted table step) fewer
      exact ⟨last, acts.trans (.head (Or.inl step) later), ended⟩

theorem not_circles (parsed : a.Parsed g leaves c) (productive : g.Productive) : ¬ a.Circles c := by
  intro circles
  obtain ⟨d, settled⟩ := circles.settle (a.reductionLimit c)
  exact parsed.settle_ne_reduced table lawful productive settled

/-- If every nonterminal derives something, a run with enough rounds is not given up. -/
theorem run_ends (parsed : a.Parsed g leaves c) (productive : g.Productive) {rounds : Nat}
    (enough : c.rest.length < rounds) : ∃ d, Relation.ReflTransGen a.Acts c d ∧
      ((∃ e, a.step d = .accepted e ∧ a.run rounds c = .ok e.trace.reverse) ∨
        ∃ error, a.step d = .rejected error ∧ a.run rounds c = .error error) := by
  obtain ⟨d, path, ended⟩ := parsed.run_cases table lawful enough
  refine ⟨d, path, ?_⟩
  rcases ended with accepted | rejected | ⟨circles, _⟩
  · exact Or.inl accepted
  · exact Or.inr rejected
  · exact absurd circles ((parsed.along table lawful path).not_circles table lawful productive)

/-- Reductions do not go on for ever. -/
theorem not_reduces_forever (parsed : a.Parsed g leaves c) (productive : g.Productive) :
    ¬ ∃ run : Nat → Config, run 0 = c ∧ ∀ n, a.step (run n) = .reduced (run (n + 1)) := by
  intro ⟨run, first, steps⟩
  have reductions : ∀ n, a.Reductions c (run n) ∧ (run n).trace.length = c.trace.length + n := by
    intro n
    induction n with
    | zero => exact ⟨first ▸ .refl, by rw [first, Nat.add_zero]⟩
    | succ n ih =>
      obtain ⟨path, count⟩ := ih
      obtain ⟨_, traced⟩ := Acts.exists_event (Or.inr (steps n))
      exact ⟨path.tail (steps n), by rw [traced, List.length_cons, count, Nat.add_assoc]⟩
  exact parsed.settle_ne_reduced table lawful productive (settle_eq_reduced_iff.mpr (reductions (a.reductionLimit c)))

end Parsed

/-- The answer to leaves that carry what their tokens ask for is what their machine comes to. -/
theorem parseBottomUp_cases (table : a.Tabulates g) (lawful : g.Lawful) (fits : ∀ leaf ∈ leaves, a.payloadFits leaf = true) :
    ∃ d, Relation.ReflTransGen a.Acts (.initial leaves) d ∧
      ((∃ e, a.step d = .accepted e ∧ a.parseBottomUp leaves = .ok e.trace.reverse) ∨
        (∃ error, a.step d = .rejected error ∧ a.parseBottomUp leaves = .error error) ∨
        (a.Circles d ∧ ∃ position token, a.parseBottomUp leaves = .error (.endless position token))) := by
  rw [parseBottomUp_eq_run fits]
  exact Parsed.initial.run_cases table lawful (Nat.lt_succ_self _)

/-- A sequence fails in both orders alike. -/
theorem parse_eq_error_iff (a : Automaton) (order : Order) {error : ParseError} :
    a.parse order leaves = .error error ↔ a.parseBottomUp leaves = .error error := by
  cases order with
  | bottomUp => exact Iff.rfl
  | topDown => exact map_eq_error

end Automaton

namespace Grammar

theorem errand_productive : errand.Productive := by
  have names : ∀ rule ∈ errand.ruleList, rule.1 = "S" ∨ rule.1 = "L" := by decide +kernel
  have whole : ("S", [.word "send", .nonterminal "L"]) ∈ errand.ruleList := by decide +kernel
  have nothing : ("L", []) ∈ errand.ruleList := by decide +kernel
  intro lhs rhs known
  rcases names _ known with same | same
  · obtain rfl : lhs = "S" := same
    exact ⟨[.fixed "send"], (Derives.of_rule whole).tail (@Rewrites.intro _ _ errand.HasRule [.word "send"] [] "L" [] nothing)⟩
  · obtain rfl : lhs = "L" := same
    exact ⟨[], Derives.of_rule nothing⟩

/-- The machine of a grammar in which every nonterminal derives something comes to an acceptance or to an error on
every sequence, and what it comes to is its answer. It never reduces for ever. -/
theorem parse_loop_ends {g : Grammar} {a : Automaton} (built : g.automaton = .ok a) (productive : g.Productive)
    {leaves : List Leaf} (fits : ∀ leaf ∈ leaves, a.payloadFits leaf = true) :
    (∃ c, Relation.ReflTransGen a.Acts (.initial leaves) c ∧
      ((∃ d, a.step c = .accepted d ∧ a.parseBottomUp leaves = .ok d.trace.reverse) ∨
        ∃ error, a.step c = .rejected error ∧ a.parseBottomUp leaves = .error error)) ∧
    ∀ c, Relation.ReflTransGen a.Acts (.initial leaves) c →
      ¬ ∃ run : Nat → Config, run 0 = c ∧ ∀ n, a.step (run n) = .reduced (run (n + 1)) := by
  have table := automaton_tabulates built
  have productive := number_productive productive
  rw [Automaton.parseBottomUp_eq_run fits]
  refine ⟨Automaton.Parsed.initial.run_ends table g.number_lawful productive (Nat.lt_succ_self _), ?_⟩
  intro c path
  exact (Automaton.Parsed.reaches table g.number_lawful path).not_reduces_forever table g.number_lawful productive

theorem parse_loop_ends_errand : ∃ a, errand.automaton = .ok a ∧ errand.Productive ∧
    (∀ leaf ∈ [⟨3, .none⟩, ⟨4, .none⟩, ⟨6, .span 2 3⟩], a.payloadFits leaf = true) ∧
    (∃ c, Relation.ReflTransGen a.Acts (.initial [⟨3, .none⟩, ⟨4, .none⟩, ⟨6, .span 2 3⟩]) c ∧
      ((∃ d, a.step c = .accepted d ∧
          a.parseBottomUp [⟨3, .none⟩, ⟨4, .none⟩, ⟨6, .span 2 3⟩] = .ok d.trace.reverse) ∨
        ∃ error, a.step c = .rejected error ∧
          a.parseBottomUp [⟨3, .none⟩, ⟨4, .none⟩, ⟨6, .span 2 3⟩] = .error error)) := by
  obtain ⟨a, built⟩ := errand_automaton
  have fits : ∀ leaf ∈ [⟨3, .none⟩, ⟨4, .none⟩, ⟨6, .span 2 3⟩], a.payloadFits leaf = true := by
    have checked : (errand.automaton.toOption.map fun a =>
        [⟨3, .none⟩, ⟨4, .none⟩, ⟨6, .span 2 3⟩].all a.payloadFits) = some true := by decide +kernel
    rw [built] at checked
    exact List.all_eq_true.mp (Option.some.inj checked)
  exact ⟨a, built, errand_productive, fits, (parse_loop_ends built errand_productive fits).1⟩

/-- Behind `y` the nonterminal `B` is awaited, which derives nothing, and `A` before it can be reduced again and again
on a `t`, because elsewhere `A` stands before a `t`. -/
def circling : Grammar where
  toDraft := (Draft.empty "S").addRules [("S", [.nonterminal "A", .word "t"]), ("S", [.word "y", .nonterminal "B"]),
    ("B", [.nonterminal "A", .nonterminal "B", .word "b"]), ("A", [])]
  faultless := by decide +kernel

/-- The machine behind `y t`, after `n` reductions on `t`. -/
def circle (n : Nat) : Config :=
  ⟨List.replicate n 6 ++ [3, 0], [⟨3, .none⟩], 1, List.replicate n (.reduce 3) ++ [.shift ⟨4, .none⟩]⟩

theorem circling_run {a : Automaton} (built : circling.automaton = .ok a) :
    (∀ leaf ∈ [⟨4, .none⟩, ⟨3, .none⟩], a.payloadFits leaf = true) ∧
    a.Acts (.initial [⟨4, .none⟩, ⟨3, .none⟩]) (circle 0) ∧ ∀ n, a.step (circle n) = .reduced (circle (n + 1)) := by
  have moves : (circling.automaton.toOption.map fun a =>
      ((a.action 0 4, a.action 3 3, a.action 6 3), (a.goto 3 2, a.goto 6 2))) =
      some ((.shift 3, .reduce 3, .reduce 3), (some 6, some 6)) := by decide +kernel
  have checked : (circling.automaton.toOption.map fun a => (a.grammar.rules[3]?,
      [⟨4, .none⟩, ⟨3, .none⟩].all a.payloadFits)) = some (some ⟨2, []⟩, true) := by decide +kernel
  rw [built] at moves checked
  simp only [Except.toOption, Option.map_some, Option.some.injEq, Prod.mk.injEq] at moves checked
  obtain ⟨⟨shifts, first, again⟩, enters, stays⟩ := moves
  obtain ⟨rule, fits⟩ := checked
  refine ⟨List.all_eq_true.mp fits, Or.inl (Automaton.step_eq_shifted.mpr ⟨3, shifts, rfl⟩), fun n => ?_⟩
  cases n with
  | zero => exact Automaton.step_eq_reduced.mpr ⟨3, ⟨2, []⟩, 6, first, rule, enters, rfl⟩
  | succ n => exact Automaton.step_eq_reduced.mpr ⟨3, ⟨2, []⟩, 6, again, rule, stays, rfl⟩

/-- The machine of this grammar comes neither to an acceptance nor to an error. -/
theorem circling_endless : ∃ a, circling.automaton = .ok a ∧
    (∀ leaf ∈ [⟨4, .none⟩, ⟨3, .none⟩], a.payloadFits leaf = true) ∧
    Relation.ReflTransGen a.Acts (.initial [⟨4, .none⟩, ⟨3, .none⟩]) (circle 0) ∧
    (∀ n, a.step (circle n) = .reduced (circle (n + 1))) ∧
    ∀ c, Relation.ReflTransGen a.Acts (.initial [⟨4, .none⟩, ⟨3, .none⟩]) c → ∃ d, a.Acts c d := by
  have some : circling.automaton.toOption.isSome = true := by decide +kernel
  obtain ⟨a, built⟩ := Option.isSome_iff_exists.mp some
  have built := eq_ok_of_toOption built
  obtain ⟨fits, start, circles⟩ := circling_run built
  refine ⟨a, built, fits, .single start, circles, ?_⟩
  intro c path
  have passes : c = .initial [⟨4, .none⟩, ⟨3, .none⟩] ∨ ∃ n, c = circle n := by
    induction path with
    | refl => exact Or.inl rfl
    | tail _ acts ih =>
      rcases ih with rfl | ⟨n, rfl⟩
      · exact Or.inr ⟨0, a.acts_unique acts start⟩
      · exact Or.inr ⟨n + 1, a.acts_unique acts (Or.inr (circles n))⟩
  rcases passes with rfl | ⟨n, rfl⟩
  · exact ⟨_, start⟩
  · exact ⟨_, Or.inr (circles n)⟩

end Grammar

end CommandLang
