import CommandLang.Proofs.Recognition
import CommandLang.Proofs.Unambiguity

/-! The trace of a machine tells where it stands. Every action adds one event, so a run passes through all parts of
its last trace, and machines with equal traces have equal stacks, whatever input they still have before them. -/

namespace CommandLang.Automaton

variable {a : Automaton} {g : Numbered} {c d e : Config} {leaves leaves' : List Leaf}

theorem Acts.cases (acts : a.Acts c d) :
    (∃ leaf, a.step c = .shifted d ∧ d.trace = .shift leaf :: c.trace) ∨
    ∃ rule, a.step c = .reduced d ∧ d.trace = .reduce rule :: c.trace := by
  rcases acts with step | step
  · obtain ⟨_, _, rfl⟩ := step_eq_shifted.mp step
    exact Or.inl ⟨c.next, step, rfl⟩
  · obtain ⟨rule, _, _, _, _, _, rfl⟩ := step_eq_reduced.mp step
    exact Or.inr ⟨rule, step, rfl⟩

theorem Acts.exists_event (acts : a.Acts c d) : ∃ event, d.trace = event :: c.trace := by
  rcases acts.cases with ⟨_, _, traced⟩ | ⟨_, _, traced⟩
  · exact ⟨_, traced⟩
  · exact ⟨_, traced⟩

theorem acts_unique (a : Automaton) : Relator.RightUnique a.Acts := by
  intro c d e first second
  rcases first with step | step
  · rcases second with step' | step'
    · exact Step.shifted.inj (step.symm.trans step')
    · cases step.symm.trans step'
  · rcases second with step' | step'
    · cases step.symm.trans step'
    · exact Step.reduced.inj (step.symm.trans step')

theorem exists_between (path : Relation.ReflTransGen a.Acts c e) (empty : c.trace = []) {later earlier : List Event}
    (whole : e.trace = later ++ earlier) :
    ∃ d, Relation.ReflTransGen a.Acts c d ∧ Relation.ReflTransGen a.Acts d e ∧ d.trace = earlier := by
  induction path generalizing later with
  | refl =>
    rw [empty] at whole
    obtain ⟨_, rfl⟩ := List.append_eq_nil_iff.mp whole.symm
    exact ⟨c, .refl, .refl, empty⟩
  | @tail before e path acts ih =>
    cases later with
    | nil => exact ⟨e, path.tail acts, .refl, whole⟩
    | cons event later =>
      obtain ⟨_, traced⟩ := acts.exists_event
      obtain ⟨d, first, second, same⟩ := ih (List.cons.inj (traced.symm.trans whole)).2
      exact ⟨d, first, second.tail acts, same⟩

theorem exists_later (path : Relation.ReflTransGen a.Acts c d) : ∃ later, d.trace = later ++ c.trace := by
  induction path with
  | refl => exact ⟨[], rfl⟩
  | tail _ acts ih =>
    obtain ⟨later, same⟩ := ih
    obtain ⟨event, traced⟩ := acts.exists_event
    exact ⟨event :: later, by rw [traced, same, List.cons_append]⟩

abbrev Reductions (a : Automaton) : Config → Config → Prop :=
  Relation.ReflTransGen fun c d => a.step c = .reduced d

theorem Reductions.acts (path : a.Reductions c d) : Relation.ReflTransGen a.Acts c d :=
  Relation.ReflTransGen.mono (fun _ _ => Or.inr) c d path

theorem Reductions.exists_rules (path : a.Reductions c d) : ∃ rules : List Nat, d.trace = rules.map .reduce ++ c.trace := by
  induction path with
  | refl => exact ⟨[], rfl⟩
  | tail _ step ih =>
    obtain ⟨rules, same⟩ := ih
    obtain ⟨rule, _, _, _, _, _, rfl⟩ := step_eq_reduced.mp step
    exact ⟨rule :: rules, congrArg (Event.reduce rule :: ·) same⟩

theorem reductions_of_trace (path : Relation.ReflTransGen a.Acts c d) {rules : List Nat}
    (whole : d.trace = rules.map .reduce ++ c.trace) : a.Reductions c d := by
  induction path generalizing rules with
  | refl => exact .refl
  | tail path acts ih =>
    obtain ⟨later, same⟩ := exists_later path
    rcases acts.cases with ⟨leaf, _, traced⟩ | ⟨rule, step, traced⟩
    · rw [traced, same, ← List.cons_append] at whole
      cases rules with
      | nil => cases List.append_cancel_right whole
      | cons => cases (List.cons.inj (List.append_cancel_right whole)).1
    · rw [traced, same, ← List.cons_append] at whole
      cases rules with
      | nil => cases List.append_cancel_right whole
      | cons first rules =>
        obtain ⟨_, rfl⟩ := List.cons.inj (List.append_cancel_right whole)
        exact (ih same).tail step

/-- Settling uses up its limit on reductions if there are as many of them. -/
theorem settle_eq_reduced_iff {limit : Nat} :
    a.settle limit c = .reduced d ↔ a.Reductions c d ∧ d.trace.length = c.trace.length + limit := by
  induction limit generalizing c with
  | zero =>
    rw [settle, Step.reduced.injEq, Nat.add_zero]
    refine ⟨?_, ?_⟩
    · intro same
      rw [same]
      exact ⟨.refl, rfl⟩
    · intro settled
      obtain ⟨path, count⟩ := settled
      rcases Relation.ReflTransGen.cases_head path with same | ⟨e, step, rest⟩
      · exact same
      · obtain ⟨rules, later⟩ := Reductions.exists_rules rest
        obtain ⟨_, traced⟩ := Acts.exists_event (Or.inr step)
        rw [later, traced, List.length_append, List.length_cons] at count
        omega
  | succ limit ih =>
    rw [settle]
    split
    next e step =>
      obtain ⟨_, traced⟩ := Acts.exists_event (Or.inr step)
      rw [ih, traced, List.length_cons, Nat.add_assoc, Nat.add_comm 1]
      refine and_congr_left fun count => ⟨.head step, ?_⟩
      intro path
      rcases Relation.ReflTransGen.cases_head path with rfl | ⟨other, step', rest⟩
      · omega
      · rwa [Step.reduced.inj (step.symm.trans step')]
    next ends =>
      refine ⟨fun step => absurd step (ends d), ?_⟩
      intro settled
      obtain ⟨path, count⟩ := settled
      rcases Relation.ReflTransGen.cases_head path with rfl | ⟨e, step, _⟩
      · omega
      · exact absurd step (ends e)

namespace Parsed

variable (table : a.Tabulates g) (lawful : g.Lawful)

include table lawful

theorem acts (parsed : a.Parsed g leaves c) (acts : a.Acts c d) : a.Parsed g leaves d := by
  rcases acts with step | step
  · exact parsed.shifted table step
  · exact parsed.reduced table lawful step

theorem along (parsed : a.Parsed g leaves c) (path : Relation.ReflTransGen a.Acts c d) : a.Parsed g leaves d := by
  induction path with
  | refl => exact parsed
  | tail _ step ih => exact ih.acts table lawful step

theorem reaches (path : Relation.ReflTransGen a.Acts (.initial leaves) c) : a.Parsed g leaves c :=
  initial.along table lawful path

end Parsed

theorem Stacked.unique {stack stack' : List Nat} {symbols : NumberedSymbols} (stacked : a.Stacked g stack symbols)
    (stacked' : a.Stacked g stack' symbols) (table : a.Tabulates g) : stack = stack' := by
  induction stacked generalizing stack' with
  | start =>
    cases stacked'
    rfl
  | push _ inside _ leads ih =>
    cases stacked' with
    | push before' inside' _ leads' =>
      obtain ⟨rfl, rfl⟩ := List.cons.inj (ih before')
      rw [table.states.injOn inside inside' (leads.trans leads'.symm)]

theorem Parsed.stack_eq (parsed : a.Parsed g leaves c) (parsed' : a.Parsed g leaves' d) (table : a.Tabulates g)
    (same : c.trace = d.trace) : c.stack = d.stack := by
  obtain ⟨symbols, forest, stacked, roots, _, listed⟩ := parsed
  obtain ⟨symbols', forest', stacked', roots', _, listed'⟩ := parsed'
  rw [same, listed'] at listed
  obtain ⟨_, symbolic⟩ := roots.eq_of_bottomUp roots' listed.symm
  rw [List.reverse_inj] at symbolic
  rw [symbolic] at stacked
  exact stacked.unique stacked' table

end CommandLang.Automaton
