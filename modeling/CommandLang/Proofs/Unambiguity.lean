import CommandLang.Proofs.Naming

/-! One tree for each sequence. Events can be read as a listing in one way only, and a machine lists the same
events whenever it runs, so two trees with the same leaves are equal. The two orders of events are the two
traversals of this tree. -/

namespace CommandLang

namespace Forest.Of

variable {g : Numbered} {symbols symbols' : NumberedSymbols} {forest other : Forest}

/-- Top-down events tell the trees one by one, whatever stands behind the last. -/
private theorem eq_of_topDown (tree : forest.Of g symbols) (tree' : other.Of g symbols')
    (count : symbols.length = symbols'.length) {more more' : List Event}
    (same : forest.listing .topDown ++ more = other.listing .topDown ++ more') :
    forest = other ∧ symbols = symbols' ∧ more = more' := by
  induction tree generalizing other symbols' more more' with
  | nil =>
    cases tree' with
    | nil => exact ⟨rfl, rfl, same⟩
    | leaf => cases count
    | node => cases count
  | leaf _ ih =>
    cases tree' with
    | nil => cases count
    | leaf later' =>
      obtain ⟨first, rest⟩ := List.cons.inj same
      obtain ⟨rfl, rfl, behind⟩ := ih later' (Nat.succ.inj count) rest
      rw [Event.shift.inj first]
      exact ⟨rfl, rfl, behind⟩
    | node => cases (List.cons.inj same).1
  | node known _ _ below later =>
    cases tree' with
    | nil => cases count
    | leaf => cases (List.cons.inj same).1
    | node known' below' later' =>
      simp only [listing, List.cons_append, List.append_assoc, List.cons.injEq, Event.reduce.injEq] at same
      obtain ⟨rfl, tail⟩ := same
      obtain rfl := Option.some.inj (known.symm.trans known')
      obtain ⟨rfl, _, tail⟩ := below below' rfl tail
      obtain ⟨rfl, rfl, behind⟩ := later later' (Nat.succ.inj count) tail
      exact ⟨rfl, rfl, behind⟩

/-- The events of a machine tell what a forest is and what its roots are. -/
theorem eq_of_bottomUp (tree : forest.Of g symbols) (tree' : other.Of g symbols')
    (same : forest.listing .bottomUp = other.listing .bottomUp) : forest = other ∧ symbols = symbols' := by
  have gathered := congrArg (List.foldl (Automaton.gather ⟨g, #[]⟩) []) same
  rw [foldl_gather (a := ⟨g, #[]⟩) tree, foldl_gather (a := ⟨g, #[]⟩) tree', List.append_nil, List.append_nil] at gathered
  have parts := List.reverse_inj.mp gathered
  have count : symbols.length = symbols'.length := by
    rw [← tree.length_parts, ← tree'.length_parts, parts]
  have listed : forest.listing .topDown ++ [] = other.listing .topDown ++ [] := by
    rw [← flatten_parts, ← flatten_parts, parts]
  obtain ⟨trees, roots, _⟩ := tree.eq_of_topDown tree' count listed
  exact ⟨trees, roots⟩

end Forest.Of

namespace Grammar

/-- A sequence with events has one tree of the start symbol. The events list this tree, every rule behind its
children or before them, and the rule of the added start symbol is not among them. -/
theorem parse_lists_unique_tree {g : Grammar} {a : Automaton} (built : g.automaton = .ok a) {leaves : List Leaf}
    {events : List Event} (parsed : a.parse .bottomUp leaves = .ok events) :
    ∃ tree : Forest, (∀ other : Forest,
        other.Of g.number [.nonterminal g.number.start] ∧ other.leaves = leaves ↔ other = tree) ∧
      events = tree.listing .bottomUp ++ [.accept] ∧
      a.parse .topDown leaves = .ok (tree.listing .topDown ++ [.accept]) ∧
      ∀ order rule, .reduce rule ∈ tree.listing order ++ [.accept] → rule < a.ruleCount := by
  have table := automaton_tabulates built
  obtain ⟨fits, tree, root, whole, rfl⟩ := (Automaton.parse_eq_ok_iff table g.number_lawful .bottomUp).mp parsed
  have parses : ∀ {order : Order} {other : Forest}, other.Of g.number [.nonterminal g.number.start] →
      other.leaves = leaves → a.parse order leaves = .ok (other.listing order ++ [.accept]) :=
    fun root' whole' => (Automaton.parse_eq_ok_iff table g.number_lawful _).mpr ⟨fits, _, root', whole', rfl⟩
  refine ⟨tree, fun other => ⟨?_, ?_⟩, rfl, ?_, ?_⟩
  · intro ⟨root', whole'⟩
    have listed := List.append_cancel_right (Except.ok.inj ((parses root' whole').symm.trans parsed))
    exact (root'.eq_of_bottomUp root listed).1
  · intro same
    rw [same]
    exact ⟨root, whole⟩
  · exact parses root whole
  · intro order rule member
    rcases List.mem_append.mp member with inside | last
    · rcases root.mem_listing inside with ⟨_, _, shift⟩ | ⟨known, below, same⟩
      · cases shift
      · rw [Automaton.ruleCount, table.grammar, Event.reduce.inj same]
        exact below
    · simp at last

theorem parse_lists_unique_tree_errand : ∃ a, errand.automaton = .ok a ∧
    a.parse .bottomUp [⟨3, .none⟩, ⟨6, .span 2 3⟩] =
      .ok [.shift ⟨3, .none⟩, .reduce 1, .shift ⟨6, .span 2 3⟩, .reduce 3, .reduce 0, .accept] ∧
    ∃ tree : Forest, (∀ other : Forest, other.Of errand.number [.nonterminal errand.number.start] ∧
        other.leaves = [⟨3, .none⟩, ⟨6, .span 2 3⟩] ↔ other = tree) ∧
      a.parse .topDown [⟨3, .none⟩, ⟨6, .span 2 3⟩] = .ok (tree.listing .topDown ++ [.accept]) := by
  obtain ⟨a, built⟩ := errand_automaton
  have run : (errand.automaton.toOption.bind fun a => (a.parse .bottomUp [⟨3, .none⟩, ⟨6, .span 2 3⟩]).toOption) =
      some [.shift ⟨3, .none⟩, .reduce 1, .shift ⟨6, .span 2 3⟩, .reduce 3, .reduce 0, .accept] := by decide +kernel
  rw [built] at run
  have parsed := eq_ok_of_toOption run
  obtain ⟨tree, only, _, preorder, _⟩ := parse_lists_unique_tree built parsed
  exact ⟨a, built, parsed, tree, only, preorder⟩

end Grammar

end CommandLang
