import CommandLang.Proofs.Replay

/-! Parsing undoes replaying. Events that can be replayed are a listing of a tree, apart from shifts of fixed
terminals: what a replay supplies from the rules is put back into the events, and the whole is a listing. -/

namespace CommandLang

def Numbered.withoutFixed (g : Numbered) (events : List Event) : List Event :=
  events.filter fun
    | .shift leaf => !g.isFixed leaf.token
    | _ => true

namespace Numbered

variable (g : Numbered)

@[simp] theorem withoutFixed_reduce (rule : Nat) (events : List Event) :
    g.withoutFixed (.reduce rule :: events) = .reduce rule :: g.withoutFixed events := rfl

theorem withoutFixed_shift (leaf : Leaf) (events : List Event) :
    g.withoutFixed (.shift leaf :: events) =
      if g.isFixed leaf.token then g.withoutFixed events else .shift leaf :: g.withoutFixed events := by
  by_cases fixed : g.isFixed leaf.token = true
  · simp [withoutFixed, fixed]
  · simp [withoutFixed, fixed]

theorem withoutFixed_append (events more : List Event) :
    g.withoutFixed (events ++ more) = g.withoutFixed events ++ g.withoutFixed more := List.filter_append ..

theorem withoutFixed_arrange (order : Order) (events : List Event) :
    g.withoutFixed (order.arrange events) = order.arrange (g.withoutFixed events) := by
  cases order
  · exact List.filter_reverse ..
  · rfl

end Numbered

namespace Automaton

variable {a : Automaton} {order : Order} {stack remaining : NumberedSymbols} {events followed : List Event}
  {leaves front : List Leaf}

/-- Events that unfold a stack are a listing of a forest with the stack as its roots. -/
theorem Unfolds.exists_forest (unfolds : a.Unfolds order stack events leaves) :
    ∃ forest : Forest, forest.Of a.grammar (order.arrange stack) ∧
      events = order.arrange (forest.listing order) ∧ leaves = order.arrange forest.leaves := by
  induction unfolds with
  | nil => cases order <;> exact ⟨.nil, .nil, rfl, rfl⟩
  | shift leaf _ ih =>
    obtain ⟨forest, tree, rfl, rfl⟩ := ih
    cases order with
    | topDown => exact ⟨.leaf leaf forest, .leaf tree, rfl, rfl⟩
    | bottomUp =>
      refine ⟨forest.append (.leaf leaf .nil), ?_, ?_, ?_⟩
      · simpa [Order.arrange] using tree.append (.leaf .nil)
      · simp [Order.arrange, Forest.listing]
      · simp [Order.arrange, Forest.leaves]
  | @reduce symbols events leaves rule production known _ ih =>
    obtain ⟨forest, tree, rfl, rfl⟩ := ih
    cases order with
    | topDown =>
      have roots : forest.Of a.grammar (production.rhs ++ symbols) := tree
      obtain ⟨children, rest, rfl, below, later⟩ := roots.split
      refine ⟨.node rule children rest, .node known below later, ?_, ?_⟩
      · simp [Order.arrange, Forest.listing]
      · simp [Order.arrange, Forest.leaves]
    | bottomUp =>
      have roots : Order.bottomUp.arrange (children .bottomUp production ++ symbols) = symbols.reverse ++ production.rhs := by
        simp [Order.arrange, children]
      rw [roots] at tree
      obtain ⟨before, children, rfl, earlier, below⟩ := tree.split
      refine ⟨before.append (.node rule children .nil), ?_, ?_, ?_⟩
      · simpa [Order.arrange] using earlier.append (.node known below .nil)
      · simp [Order.arrange, Forest.listing]
      · simp [Order.arrange, Forest.leaves]

/-- Some events unfold a stack into leaves that carry what their tokens ask for, and they are the ones that were
followed, apart from shifts of fixed terminals. -/
def Explains (a : Automaton) (order : Order) (stack : NumberedSymbols) (followed : List Event) (leaves : List Leaf) : Prop :=
  ∃ events, a.Unfolds order stack events leaves ∧ (∀ leaf ∈ leaves, a.payloadFits leaf = true) ∧
    a.grammar.withoutFixed events = a.grammar.withoutFixed followed

namespace Explains

private theorem shift {leaf : Leaf} (explains : a.Explains order stack followed leaves) (fits : a.payloadFits leaf = true) :
    a.Explains order (.terminal leaf.token :: stack) (.shift leaf :: followed) (leaf :: leaves) := by
  obtain ⟨events, unfolds, others, same⟩ := explains
  refine ⟨.shift leaf :: events, .shift leaf unfolds, List.forall_mem_cons.mpr ⟨fits, others⟩, ?_⟩
  rw [Numbered.withoutFixed_shift, Numbered.withoutFixed_shift, same]

private theorem reduce {rule : Nat} {production : Rule} (known : a.grammar.rules[rule]? = some production)
    (explains : a.Explains order (children order production ++ stack) followed leaves) :
    a.Explains order (.nonterminal production.lhs :: stack) (.reduce rule :: followed) leaves := by
  obtain ⟨events, unfolds, fits, same⟩ := explains
  exact ⟨.reduce rule :: events, .reduce known unfolds, fits, by simp [same]⟩

private theorem fixed {token : Nat} (fixed : a.grammar.isFixed token = true)
    (explains : a.Explains order stack followed leaves) :
    a.Explains order (.terminal token :: stack) followed (⟨token, .none⟩ :: leaves) := by
  have fits : a.payloadFits ⟨token, .none⟩ = true := by
    simp only [Numbered.isFixed] at fixed
    simp only [payloadFits]
    split at fixed
    next named => rw [named]
    next => cases fixed
  obtain ⟨events, unfolds, others, same⟩ := explains.shift fits
  refine ⟨events, unfolds, others, ?_⟩
  rw [same, Numbered.withoutFixed_shift, if_pos fixed]

/-- What is supplied from the rules can be shifted as well. -/
private theorem supply {stop : Option Nat} (explains : a.Explains order remaining followed leaves)
    (supplied : a.grammar.supply stop stack = (front, remaining)) : a.Explains order stack followed (front ++ leaves) := by
  induction stack generalizing front with
  | nil =>
    obtain ⟨rfl, rfl⟩ := Prod.mk.inj supplied
    exact explains
  | cons symbol rest ih =>
    cases symbol with
    | nonterminal a =>
      obtain ⟨rfl, rfl⟩ := Prod.mk.inj supplied
      exact explains
    | terminal token =>
      rw [Numbered.supply] at supplied
      split at supplied
      next free =>
        obtain ⟨rfl, rfl⟩ := Prod.mk.inj supplied
        simp only [Bool.and_eq_true] at free
        exact (ih rfl).fixed free.1
      next =>
        obtain ⟨rfl, rfl⟩ := Prod.mk.inj supplied
        exact explains

private theorem event {event : Event} {position : Nat} (explains : a.Explains order remaining followed leaves)
    (here : a.replayEvent order position event stack = .ok (front, remaining)) :
    a.Explains order stack (event :: followed) (front ++ leaves) := by
  cases event with
  | accept => cases here
  | shift leaf =>
    obtain ⟨fixed, supplied, fits, rfl⟩ := replayEvent_shift_iff.mp here
    rw [List.append_assoc]
    exact (explains.shift fits).supply supplied
  | reduce rule =>
    obtain ⟨production, rest, known, supplied, rfl⟩ := replayEvent_reduce_iff.mp here
    exact (explains.reduce known).supply supplied

end Explains

theorem Settles.explains {followed : List (Event × Nat)} (settles : a.Settles order followed stack leaves) :
    a.Explains order stack (followed.map Prod.fst) leaves := by
  induction followed generalizing stack leaves with
  | nil =>
    have nothing : a.Explains order [] [] [] := ⟨[], .nil, by simp, rfl⟩
    have supplied := nothing.supply (settles_nil.mp settles)
    rwa [List.append_nil] at supplied
  | cons first followed ih =>
    obtain ⟨event, position⟩ := first
    obtain ⟨front, remaining, rest, here, later, rfl⟩ := settles_cons.mp settles
    exact (ih later).event here

/-- A replay ends with the only acceptance and settles the events before it. -/
theorem replay_eq_ok (replayed : a.replay order events = .ok leaves) :
    ∃ body, events = body ++ [.accept] ∧
      a.Settles order (order.arrange body.zipIdx) [.nonterminal a.grammar.start] (order.arrange leaves) := by
  rw [replay] at replayed
  split at replayed
  · cases replayed
  next accepted found =>
    obtain ⟨inside, last, _⟩ := List.findIdx?_eq_some_iff_getElem.mp found
    split at replayed
    · cases replayed
    next trailing =>
      have whole : events = events.take accepted ++ [.accept] := by
        have end' : accepted + 1 = events.length := by omega
        have accepts : events[accepted] = .accept := of_decide_eq_true last
        rw [← accepts, List.take_append_getElem, end', List.take_length]
      refine ⟨events.take accepted, whole, ?_⟩
      generalize events.take accepted = body at replayed
      change (a.replayEvents order (order.arrange body.zipIdx) [.nonterminal a.grammar.start] >>= fun followed =>
        if (a.grammar.supply none followed.2).2.isEmpty then
          .ok (order.arrange (followed.1 ++ (a.grammar.supply none followed.2).1))
        else .error (.prematureAccept accepted)) = .ok leaves at replayed
      cases follows : a.replayEvents order (order.arrange body.zipIdx) [.nonterminal a.grammar.start] with
      | error error =>
        rw [follows] at replayed
        cases replayed
      | ok followed =>
        rw [follows] at replayed
        change (if _ then _ else _) = _ at replayed
        split at replayed
        next empty =>
          refine ⟨followed.1, followed.2, _, follows, Prod.ext rfl (List.isEmpty_iff.mp empty), ?_⟩
          rw [← Except.ok.inj replayed, Order.arrange_arrange]
        · cases replayed

/-- What can be replayed is, apart from shifts of fixed terminals, the listing of a tree of the start symbol. -/
theorem replay_sound (replayed : a.replay order events = .ok leaves) :
    ∃ tree : Forest, tree.Of a.grammar [.nonterminal a.grammar.start] ∧ tree.leaves = leaves ∧
      (∀ leaf ∈ leaves, a.payloadFits leaf = true) ∧
      a.grammar.withoutFixed (tree.listing order ++ [.accept]) = a.grammar.withoutFixed events := by
  obtain ⟨body, rfl, settles⟩ := replay_eq_ok replayed
  obtain ⟨unfolded, unfolds, fits, same⟩ := settles.explains
  obtain ⟨tree, root, rfl, whole⟩ := unfolds.exists_forest
  rw [Order.arrange_singleton] at root
  have yields : tree.leaves = leaves := by
    rw [← Order.arrange_arrange order tree.leaves, ← whole, Order.arrange_arrange]
  refine ⟨tree, root, yields, fun leaf member => fits leaf (Order.mem_arrange.mpr member), ?_⟩
  rw [Order.map_arrange, List.zipIdx_map_fst, Numbered.withoutFixed_arrange, Numbered.withoutFixed_arrange] at same
  have bodies := congrArg order.arrange same
  rw [Order.arrange_arrange, Order.arrange_arrange] at bodies
  rw [Numbered.withoutFixed_append, Numbered.withoutFixed_append, bodies]

end Automaton

namespace Grammar

/-- Parsing undoes replaying, whatever the events were: the sequence that was read back has the same events, apart
from shifts of fixed terminals. So only listings of trees are replayed, and two of them that give one sequence
differ in shifts of fixed terminals alone. -/
theorem parse_replay {g : Grammar} {a : Automaton} (built : g.automaton = .ok a) {order : Order}
    {events : List Event} {leaves : List Leaf} (replayed : a.replay order events = .ok leaves) :
    (∃ parsed, a.parse order leaves = .ok parsed ∧
      a.grammar.withoutFixed parsed = a.grammar.withoutFixed events) ∧
    (∃ tree : Forest, tree.Of g.number [.nonterminal g.number.start] ∧ tree.leaves = leaves ∧
      a.grammar.withoutFixed events = a.grammar.withoutFixed (tree.listing order ++ [.accept])) ∧
    ∀ other, a.replay order other = .ok leaves → a.grammar.withoutFixed other = a.grammar.withoutFixed events := by
  have table := automaton_tabulates built
  have parses : ∀ {events}, a.replay order events = .ok leaves → ∃ tree : Forest,
      tree.Of g.number [.nonterminal g.number.start] ∧ tree.leaves = leaves ∧
      a.parse order leaves = .ok (tree.listing order ++ [.accept]) ∧
      a.grammar.withoutFixed (tree.listing order ++ [.accept]) = a.grammar.withoutFixed events := by
    intro events replayed
    obtain ⟨tree, root, whole, fits, same⟩ := Automaton.replay_sound replayed
    rw [table.grammar] at root
    exact ⟨tree, root, whole,
      (Automaton.parse_eq_ok_iff table g.number_lawful order).mpr ⟨fits, tree, root, whole, rfl⟩, same⟩
  obtain ⟨tree, root, whole, parsed, same⟩ := parses replayed
  refine ⟨⟨_, parsed, same⟩, ⟨tree, root, whole, same.symm⟩, ?_⟩
  intro other replayed'
  obtain ⟨tree', _, _, parsed', same'⟩ := parses replayed'
  rw [← same', ← same, Except.ok.inj (parsed'.symm.trans parsed)]

theorem parse_replay_errand : ∃ a, errand.automaton = .ok a ∧
    a.replay .bottomUp [.shift ⟨3, .none⟩, .reduce 1, .shift ⟨5, .index 1⟩, .reduce 2, .shift ⟨6, .span 2 3⟩,
      .reduce 3, .reduce 0, .accept] = .ok [⟨3, .none⟩, ⟨4, .none⟩, ⟨5, .index 1⟩, ⟨6, .span 2 3⟩] ∧
    ∃ parsed, a.parse .bottomUp [⟨3, .none⟩, ⟨4, .none⟩, ⟨5, .index 1⟩, ⟨6, .span 2 3⟩] = .ok parsed ∧
      a.grammar.withoutFixed parsed = a.grammar.withoutFixed [.shift ⟨3, .none⟩, .reduce 1, .shift ⟨5, .index 1⟩,
        .reduce 2, .shift ⟨6, .span 2 3⟩, .reduce 3, .reduce 0, .accept] := by
  obtain ⟨a, built⟩ := errand_automaton
  have followed : (errand.automaton.toOption.bind fun a =>
      (a.replay .bottomUp [.shift ⟨3, .none⟩, .reduce 1, .shift ⟨5, .index 1⟩, .reduce 2, .shift ⟨6, .span 2 3⟩,
        .reduce 3, .reduce 0, .accept]).toOption) =
      some [⟨3, .none⟩, ⟨4, .none⟩, ⟨5, .index 1⟩, ⟨6, .span 2 3⟩] := by decide +kernel
  rw [built] at followed
  have replayed := eq_ok_of_toOption followed
  exact ⟨a, built, replayed, (parse_replay built replayed).1⟩

end Grammar

end CommandLang
