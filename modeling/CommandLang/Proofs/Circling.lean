import CommandLang.Proofs.ErrorPosition

/-! Sequences on which a machine never comes to an end. These are the ones on which it is given up, so a machine that
is not given up has come to an end of its own. -/

namespace CommandLang

namespace Automaton

variable {a : Automaton} {g : Numbered} {c d : Config} {leaves : List Leaf}

/-- On its way through a sequence a machine comes to reductions that never end. -/
def NeverEnds (a : Automaton) (leaves : List Leaf) : Prop :=
  ∃ c, Relation.ReflTransGen a.Acts (.initial leaves) c ∧ a.Circles c

theorem Circles.along (circles : a.Circles c) (path : Relation.ReflTransGen a.Acts c d) : a.Circles d := by
  induction path with
  | refl => exact circles
  | @tail d e _ acts ih =>
    obtain ⟨f, step⟩ := ih d .refl
    obtain rfl := a.acts_unique acts (Or.inr step)
    exact fun last path => ih last (.head step path)

/-- A machine does not come to an end on a sequence on which it never ends. -/
theorem NeverEnds.not_stops (forever : a.NeverEnds leaves) (path : Relation.ReflTransGen a.Acts (.initial leaves) d)
    (stops : ∀ e, ¬ a.Acts d e) : False := by
  obtain ⟨c, path', circles⟩ := forever
  have circles' : a.Circles d := by
    rcases Relation.ReflTransGen.total_of_right_unique a.acts_unique path path' with before | behind
    · rcases Relation.ReflTransGen.cases_head before with rfl | ⟨e, acts, _⟩
      · exact circles
      · exact absurd acts (stops e)
    · exact circles.along behind
  obtain ⟨e, step⟩ := circles' d .refl
  exact stops e (Or.inr step)

/-- A sequence of leaves that carry what their tokens ask for is given up if and only if the machine never ends on it. -/
theorem parse_endless_iff (table : a.Tabulates g) (lawful : g.Lawful) :
    (∃ position token, a.parse .bottomUp leaves = .error (.endless position token)) ↔
      (∀ leaf ∈ leaves, a.payloadFits leaf = true) ∧ a.NeverEnds leaves := by
  constructor
  · intro given
    obtain ⟨position, token, given⟩ := given
    have fits := payloadFits_of_parseBottomUp_eq_error given nofun nofun
    obtain ⟨d, path, ended⟩ := parseBottomUp_cases table lawful fits
    refine ⟨fits, d, path, ?_⟩
    rcases ended with ⟨_, _, accepted⟩ | ⟨error, step, rejected⟩ | ⟨circles, _⟩
    · cases given.symm.trans accepted
    · obtain rfl := Except.error.inj (given.symm.trans rejected)
      cases error_of_rejected step
    · exact circles
  · intro holds
    obtain ⟨fits, forever⟩ := holds
    obtain ⟨d, path, ended⟩ := parseBottomUp_cases table lawful fits
    rcases ended with ⟨_, step, _⟩ | ⟨_, step, _⟩ | ⟨_, given⟩
    · exact (forever.not_stops path fun _ => not_acts_of_accepted step).elim
    · exact (forever.not_stops path fun _ => not_acts_of_rejected step).elim
    · exact given

theorem not_neverEnds (table : a.Tabulates g) (lawful : g.Lawful) (productive : g.Productive) : ¬ a.NeverEnds leaves := by
  intro forever
  obtain ⟨c, path, circles⟩ := forever
  exact (Parsed.reaches table lawful path).not_circles table lawful productive circles

end Automaton

theorem Grammar.circling_neverEnds {a : Automaton} (built : circling.automaton = .ok a) : a.NeverEnds [⟨4, .none⟩, ⟨3, .none⟩] := by
  obtain ⟨_, start, reduces⟩ := circling_run built
  exact ⟨circle 0, .single start, .of_run reduces⟩

end CommandLang
