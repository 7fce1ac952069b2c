import CommandLang.Proofs.Limit
import CommandLang.Proofs.Progress

/-! What an automaton recognises. A sequence has events exactly if its leaves carry what their tokens ask for and it
is the leaves of a tree of the start symbol, and the events list such a tree. -/

namespace CommandLang

namespace Automaton

variable {a : Automaton} {g : Numbered} {leaves : List Leaf} {c d e : Config} {events : List Event}

theorem settle_cases (limit : Nat) (c : Config) :
    ∃ d, Relation.ReflTransGen (fun c d => a.step c = .reduced d) c d ∧
      (a.settle limit c = .reduced d ∨ a.settle limit c = a.step d) := by
  induction limit generalizing c with
  | zero => exact ⟨c, .refl, Or.inl rfl⟩
  | succ limit ih =>
    rw [settle]
    split
    next e step =>
      obtain ⟨d, path, result⟩ := ih e
      exact ⟨d, .head step path, result⟩
    next => exact ⟨c, .refl, Or.inr rfl⟩

theorem Parsed.reductions (parsed : a.Parsed g leaves c) (table : a.Tabulates g) (lawful : g.Lawful)
    (path : Relation.ReflTransGen (fun c d => a.step c = .reduced d) c d) : a.Parsed g leaves d := by
  induction path with
  | refl => exact parsed
  | tail _ step ih => exact ih.reduced table lawful step

private theorem Parsed.run_sound (parsed : a.Parsed g leaves c) (table : a.Tabulates g) (lawful : g.Lawful)
    (named : ∀ leaf ∈ leaves, leaf.token ≠ Token.eos) {rounds : Nat} (ended : a.run rounds c = .ok events) :
    ∃ forest : Forest, forest.Of g [.nonterminal g.start] ∧ forest.leaves = leaves ∧
      events = forest.listing .bottomUp ++ [.accept] := by
  induction rounds generalizing c with
  | zero => cases ended
  | succ rounds ih =>
    obtain ⟨d, path, result⟩ := settle_cases (a.reductionLimit c) c
    have parsed := parsed.reductions table lawful path
    rw [run] at ended
    rcases result with result | result
    · rw [result] at ended
      cases ended
    · rw [result] at ended
      split at ended
      next step => exact ih (parsed.shifted table step) ended
      · cases ended
      next step =>
        obtain ⟨forest, tree, whole, listed⟩ := parsed.accepted table lawful named step
        exact ⟨forest, tree, whole, (Except.ok.inj ended).symm.trans listed⟩
      · cases ended

private theorem Stacked.acts {symbols : NumberedSymbols} (stacked : a.Stacked g c.stack symbols) (table : a.Tabulates g)
    (lawful : g.Lawful) (acts : a.Acts c d) : ∃ symbols, a.Stacked g d.stack symbols := by
  rcases acts with step | step
  · obtain ⟨next, acts, rfl⟩ := step_eq_shifted.mp step
    exact ⟨_, (stacked.shift table acts).2⟩
  · exact (stacked.reduces table lawful step).2.2

/-- Reductions lead to the acceptance or to a shift from which the run ends well. -/
private def Succeeds (a : Automaton) (e c : Config) : Prop :=
  ∃ d, Relation.ReflTransGen (fun c d => a.step c = .reduced d) c d ∧
    (a.step d = .accepted e ∨ ∃ after, a.step d = .shifted after ∧ after.rest.length < c.rest.length ∧
      ∀ rounds, after.rest.length < rounds → a.run rounds after = .ok e.trace.reverse)

private theorem Succeeds.run {symbols : NumberedSymbols} (succeeds : a.Succeeds e c)
    (stacked : a.Stacked g c.stack symbols) (table : a.Tabulates g) (lawful : g.Lawful) {rounds : Nat}
    (enough : c.rest.length < rounds) : a.run rounds c = .ok e.trace.reverse := by
  obtain ⟨d, path, result⟩ := succeeds
  cases rounds with
  | zero => cases enough
  | succ rounds =>
    rw [Automaton.run]
    rcases result with step | ⟨after, step, fewer, ends⟩
    · rw [settle_eq table lawful stacked path (by simp [step]), step]
    · rw [settle_eq table lawful stacked path (by simp [step]), step]
      exact ends rounds (by omega)

private theorem Stacked.succeeds {symbols : NumberedSymbols} (stacked : a.Stacked g c.stack symbols)
    (table : a.Tabulates g) (lawful : g.Lawful) (path : Relation.ReflTransGen a.Acts c d)
    (accepts : a.step d = .accepted e) : a.Succeeds e c := by
  induction path using Relation.ReflTransGen.head_induction_on generalizing symbols with
  | refl => exact ⟨d, .refl, Or.inl accepts⟩
  | @head c after acts _ ih =>
    obtain ⟨_, stacked'⟩ := stacked.acts table lawful acts
    have later := ih stacked'
    rcases acts with step | step
    · refine ⟨c, .refl, Or.inr ⟨after, step, ?_, fun rounds enough => later.run stacked' table lawful enough⟩⟩
      obtain ⟨next, shifts, rfl⟩ := step_eq_shifted.mp step
      cases more : c.rest with
      | nil => exact absurd (by simp [Config.next, more]) (stacked.shift table shifts).1
      | cons => simp
    · obtain ⟨_, same, _⟩ := stacked.reduces table lawful step
      obtain ⟨last, reductions, result⟩ := later
      rw [same] at result
      exact ⟨last, .head step reductions, result⟩

theorem leafFault?_eq_none {position : Nat} :
    a.leafFault? position leaves = none ↔ ∀ leaf ∈ leaves, a.payloadFits leaf = true := by
  induction leaves generalizing position with
  | nil => simp [leafFault?]
  | cons leaf rest ih =>
    have known : a.payloadFits leaf = true → a.knows leaf.token = true := by
      simp only [payloadFits, knows]
      split <;> simp_all
    rw [leafFault?, List.forall_mem_cons, ← @ih (position + 1)]
    by_cases fits : a.payloadFits leaf = true
    · simp [fits, known fits]
    · by_cases knows : a.knows leaf.token = true
      · simp [fits, knows]
      · simp [fits, knows]

theorem leafFault?_cases {position : Nat} {error : ParseError} (found : a.leafFault? position leaves = some error) :
    (∃ place token, error = .unknownToken place token) ∨ ∃ place token, error = .malformedPayload place token := by
  induction leaves generalizing position with
  | nil => cases found
  | cons leaf rest ih =>
    rw [leafFault?] at found
    split at found
    · exact Or.inl ⟨_, _, (Option.some.inj found).symm⟩
    · split at found
      · exact Or.inr ⟨_, _, (Option.some.inj found).symm⟩
      · exact ih found

theorem payloadFits_of_parseBottomUp_eq_error {error : ParseError} (failed : a.parseBottomUp leaves = .error error)
    (known : ∀ place token, error ≠ .unknownToken place token) (formed : ∀ place token, error ≠ .malformedPayload place token) :
    ∀ leaf ∈ leaves, a.payloadFits leaf = true := by
  rw [parseBottomUp] at failed
  split at failed
  next fault found =>
    obtain rfl := Except.error.inj failed
    rcases leafFault?_cases found with ⟨place, token, unknown⟩ | ⟨place, token, malformed⟩
    · exact absurd unknown (known place token)
    · exact absurd malformed (formed place token)
  next clean => exact leafFault?_eq_none.mp clean

theorem ne_eos_of_payloadFits {leaf : Leaf} (fits : a.payloadFits leaf = true) : leaf.token ≠ Token.eos := by
  intro same
  simp [payloadFits, same, Numbered.terminal?, Token.eos, Token.controls] at fits

private theorem parseBottomUp_eq_ok_iff (table : a.Tabulates g) (lawful : g.Lawful) :
    a.parseBottomUp leaves = .ok events ↔ (∀ leaf ∈ leaves, a.payloadFits leaf = true) ∧
      ∃ forest : Forest, forest.Of g [.nonterminal g.start] ∧ forest.leaves = leaves ∧
        events = forest.listing .bottomUp ++ [.accept] := by
  rw [parseBottomUp]
  split
  next error fault =>
    have unfit : ¬ ∀ leaf ∈ leaves, a.payloadFits leaf = true := by
      rw [← @leafFault?_eq_none a leaves 0, fault]
      simp
    simp [unfit]
  next clean =>
    have fits := leafFault?_eq_none.mp clean
    have named : ∀ leaf ∈ leaves, leaf.token ≠ Token.eos := fun leaf member => ne_eos_of_payloadFits (fits leaf member)
    constructor
    · exact fun ended => ⟨fits, Parsed.initial.run_sound table lawful named ended⟩
    · rintro ⟨_, forest, tree, rfl, rfl⟩
      obtain ⟨c, d, path, accepts, listed⟩ := tree.accepts table named
      have stacked : a.Stacked g (Config.initial forest.leaves).stack [] := .start
      rw [← listed]
      exact (stacked.succeeds table lawful path accepts).run stacked table lawful (Nat.lt_succ_self _)

/-- The events of a sequence list a tree of the start symbol with the sequence as its leaves. -/
theorem parse_eq_ok_iff (table : a.Tabulates g) (lawful : g.Lawful) (order : Order) :
    a.parse order leaves = .ok events ↔ (∀ leaf ∈ leaves, a.payloadFits leaf = true) ∧
      ∃ forest : Forest, forest.Of g [.nonterminal g.start] ∧ forest.leaves = leaves ∧
        events = forest.listing order ++ [.accept] := by
  cases order with
  | bottomUp => exact parseBottomUp_eq_ok_iff table lawful
  | topDown =>
    have preorder : ∀ {forest : Forest}, forest.Of g [.nonterminal g.start] →
        a.preorder (forest.listing .bottomUp ++ [.accept]) = forest.listing .topDown ++ [.accept] := by
      intro forest tree
      rw [← table.grammar] at tree
      exact tree.preorder_listing
    rw [parse]
    constructor
    · intro ended
      obtain ⟨listed, run, rfl⟩ : ∃ listed, a.parseBottomUp leaves = .ok listed ∧ a.preorder listed = events := by
        cases result : a.parseBottomUp leaves with
        | error error => simp [result, Except.map] at ended
        | ok listed => exact ⟨listed, rfl, by simpa [result, Except.map] using ended⟩
      obtain ⟨fits, forest, tree, whole, rfl⟩ := (parseBottomUp_eq_ok_iff table lawful).mp run
      exact ⟨fits, forest, tree, whole, preorder tree⟩
    · rintro ⟨fits, forest, tree, whole, rfl⟩
      rw [(parseBottomUp_eq_ok_iff table lawful).mpr ⟨fits, forest, tree, whole, rfl⟩, Except.map, preorder tree]

end Automaton

end CommandLang
