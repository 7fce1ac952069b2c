import CommandLang.Parse.Replay
import CommandLang.Proofs.Naming
import CommandLang.Proofs.Outcome

/-! Replaying the events of a sequence gives the sequence back, even if shifts of fixed terminals are missing. An
event that was meant for a later fixed terminal may be taken by an equal one before it; then the later one is
supplied instead, and the leaves are the same. -/

namespace CommandLang

/-- Some shifts of fixed terminals are left out. -/
inductive Numbered.Thins (g : Numbered) : List Event → List Event → Prop where
  | nil : Thins g [] []
  | keep {events kept : List Event} (event : Event) (later : Thins g events kept) : Thins g (event :: events) (event :: kept)
  | drop {events kept : List Event} {leaf : Leaf} (fixed : g.isFixed leaf.token = true) (later : Thins g events kept) :
      Thins g (.shift leaf :: events) kept

namespace Numbered.Thins

variable {g : Numbered} {events kept : List Event}

theorem append {more rest : List Event} (first : g.Thins events kept) (second : g.Thins more rest) :
    g.Thins (events ++ more) (kept ++ rest) := by
  induction first with
  | nil => exact second
  | keep event _ ih => exact .keep event ih
  | drop fixed _ ih => exact .drop fixed ih

theorem reverse (thins : g.Thins events kept) : g.Thins events.reverse kept.reverse := by
  induction thins with
  | nil => exact .nil
  | keep event _ ih =>
    rw [List.reverse_cons, List.reverse_cons]
    exact ih.append (.keep event .nil)
  | drop fixed _ ih =>
    have whole := ih.append (.drop fixed .nil)
    rw [List.append_nil] at whole
    rw [List.reverse_cons]
    exact whole

theorem mem (thins : g.Thins events kept) {event : Event} (member : event ∈ kept) : event ∈ events := by
  induction thins with
  | nil => exact member
  | keep other _ ih =>
    rcases List.mem_cons.mp member with rfl | later
    · exact List.mem_cons_self ..
    · exact List.mem_cons_of_mem _ (ih later)
  | drop _ _ ih => exact List.mem_cons_of_mem _ (ih member)

theorem tail {leaf : Leaf} (thins : g.Thins events (.shift leaf :: kept)) (fixed : g.isFixed leaf.token = true) :
    g.Thins events kept := by
  generalize whole : Event.shift leaf :: kept = all at thins
  induction thins with
  | nil => cases whole
  | keep event later =>
    obtain ⟨rfl, rfl⟩ := List.cons.inj whole
    exact .drop fixed later
  | drop other _ ih => exact .drop other (ih whole)

theorem exists_of_append {event : Event} (thins : g.Thins (events ++ [event]) kept)
    (unfixed : ∀ leaf, event = .shift leaf → g.isFixed leaf.token = false) :
    ∃ rest, kept = rest ++ [event] ∧ g.Thins events rest := by
  induction events generalizing kept with
  | nil =>
    cases thins with
    | keep _ later =>
      cases later
      exact ⟨[], rfl, .nil⟩
    | drop fixed _ => simp [unfixed _ rfl] at fixed
  | cons first events ih =>
    cases thins with
    | keep _ later =>
      obtain ⟨rest, rfl, thins⟩ := ih later
      exact ⟨first :: rest, rfl, .keep first thins⟩
    | drop fixed later =>
      obtain ⟨rest, rfl, thins⟩ := ih later
      exact ⟨rest, rfl, .drop fixed thins⟩

end Numbered.Thins

def Order.arrange {α : Type} (order : Order) (items : List α) : List α :=
  match order with
  | .bottomUp => items.reverse
  | .topDown => items

theorem Order.mem_arrange {α : Type} {order : Order} {items : List α} {item : α} :
    item ∈ order.arrange items ↔ item ∈ items := by
  cases order
  · exact List.mem_reverse
  · exact Iff.rfl

theorem Order.arrange_arrange {α : Type} (order : Order) (items : List α) :
    order.arrange (order.arrange items) = items := by
  cases order
  · exact List.reverse_reverse items
  · rfl

theorem Order.arrange_singleton {α : Type} (order : Order) (item : α) : order.arrange [item] = [item] := by
  cases order <;> rfl

theorem Order.map_arrange {α β : Type} (f : α → β) (order : Order) (items : List α) :
    (order.arrange items).map f = order.arrange (items.map f) := by
  cases order
  · exact List.map_reverse
  · rfl

theorem Numbered.Thins.arrange {g : Numbered} {events kept : List Event} (thins : g.Thins events kept) (order : Order) :
    g.Thins (order.arrange events) (order.arrange kept) := by
  cases order
  · exact thins.reverse
  · exact thins

namespace Automaton

variable {a : Automaton} {order : Order} {stack symbols : NumberedSymbols} {events kept : List Event} {leaves : List Leaf}

/-- Events that derive leaves from the symbols on a stack, one symbol after the other. -/
inductive Unfolds (a : Automaton) (order : Order) : NumberedSymbols → List Event → List Leaf → Prop where
  | nil : Unfolds a order [] [] []
  | shift {symbols : NumberedSymbols} {events : List Event} {leaves : List Leaf} (leaf : Leaf)
      (later : Unfolds a order symbols events leaves) :
      Unfolds a order (.terminal leaf.token :: symbols) (.shift leaf :: events) (leaf :: leaves)
  | reduce {symbols : NumberedSymbols} {events : List Event} {leaves : List Leaf} {rule : Nat} {production : Rule}
      (known : a.grammar.rules[rule]? = some production)
      (later : Unfolds a order (children order production ++ symbols) events leaves) :
      Unfolds a order (.nonterminal production.lhs :: symbols) (.reduce rule :: events) leaves

theorem Unfolds.append {more : NumberedSymbols} {rest : List Event} {others : List Leaf}
    (first : a.Unfolds order symbols events leaves) (second : a.Unfolds order more rest others) :
    a.Unfolds order (symbols ++ more) (events ++ rest) (leaves ++ others) := by
  induction first with
  | nil => exact second
  | shift leaf _ ih => exact .shift leaf ih
  | reduce known _ ih => exact .reduce known (by rwa [List.append_assoc] at ih)

private theorem unfolds_topDown {forest : Forest} (tree : forest.Of a.grammar symbols) :
    a.Unfolds .topDown symbols (forest.listing .topDown) forest.leaves := by
  induction tree with
  | nil => exact .nil
  | leaf _ ih => exact .shift _ ih
  | node known _ _ below later => exact .reduce known (below.append later)

private theorem unfolds_bottomUp {forest : Forest} (tree : forest.Of a.grammar symbols) :
    a.Unfolds .bottomUp symbols.reverse (forest.listing .bottomUp).reverse forest.leaves.reverse := by
  induction tree with
  | nil => exact .nil
  | leaf _ ih =>
    simp only [Forest.listing, Forest.leaves, List.reverse_cons]
    exact ih.append (.shift _ .nil)
  | @node rule production symbols children rest known _ _ below later =>
    have here : a.Unfolds .bottomUp [.nonterminal production.lhs] (.reduce rule :: (children.listing .bottomUp).reverse)
        children.leaves.reverse := by
      refine .reduce known ?_
      rw [List.append_nil]
      exact below
    simpa [Forest.listing, Forest.leaves] using later.append here

theorem unfolds_listing {forest : Forest} (tree : forest.Of a.grammar symbols) (order : Order) :
    a.Unfolds order (order.arrange symbols) (order.arrange (forest.listing order)) (order.arrange forest.leaves) := by
  cases order
  · exact unfolds_bottomUp tree
  · exact unfolds_topDown tree

/-- Following some events settles some leaves and leaves only fixed terminals, which are the other leaves. -/
def Settles (a : Automaton) (order : Order) (followed : List (Event × Nat)) (stack : NumberedSymbols)
    (leaves : List Leaf) : Prop :=
  ∃ front remaining rest, a.replayEvents order followed stack = .ok (front, remaining) ∧
    a.grammar.supply none remaining = (rest, []) ∧ front ++ rest = leaves

theorem settles_nil {rest : List Leaf} :
    a.Settles order [] stack rest ↔ a.grammar.supply none stack = (rest, []) := by
  constructor
  · rintro ⟨front, remaining, rest, followed, supplied, rfl⟩
    obtain ⟨rfl, rfl⟩ := Prod.mk.inj (Except.ok.inj followed)
    exact supplied
  · exact fun supplied => ⟨[], stack, rest, rfl, supplied, rfl⟩

theorem settles_cons {event : Event} {position : Nat} {followed : List (Event × Nat)} :
    a.Settles order ((event, position) :: followed) stack leaves ↔ ∃ front remaining rest,
      a.replayEvent order position event stack = .ok (front, remaining) ∧
      a.Settles order followed remaining rest ∧ leaves = front ++ rest := by
  constructor
  · rintro ⟨front, remaining, rest, whole, supplied, rfl⟩
    obtain ⟨⟨first, between⟩, here, whole⟩ := bind_eq_ok.mp whole
    obtain ⟨⟨more, last⟩, later, whole⟩ := bind_eq_ok.mp whole
    obtain ⟨rfl, rfl⟩ := Prod.mk.inj (Except.ok.inj whole)
    exact ⟨first, between, more ++ rest, here, ⟨more, last, rest, later, supplied, rfl⟩, List.append_assoc ..⟩
  · rintro ⟨first, between, _, here, ⟨more, last, rest, later, supplied, rfl⟩, rfl⟩
    refine ⟨first ++ more, last, rest, ?_, supplied, by simp⟩
    simp [replayEvents, here, later, bind, Except.bind, pure, Except.pure]

theorem settles_append {first second : List (Event × Nat)} :
    a.Settles order (first ++ second) stack leaves ↔ ∃ front remaining rest,
      a.replayEvents order first stack = .ok (front, remaining) ∧ a.Settles order second remaining rest ∧
      leaves = front ++ rest := by
  induction first generalizing stack leaves with
  | nil => simp [replayEvents]
  | cons event first ih =>
    obtain ⟨event, position⟩ := event
    rw [List.cons_append, settles_cons]
    constructor
    · rintro ⟨settled, between, _, here, later, rfl⟩
      obtain ⟨more, remaining, rest, followed, settles, rfl⟩ := ih.mp later
      exact ⟨settled ++ more, remaining, rest, by simp [replayEvents, here, followed, bind, Except.bind, pure, Except.pure],
        settles, (List.append_assoc ..).symm⟩
    · rintro ⟨front, remaining, rest, whole, settles, rfl⟩
      obtain ⟨⟨settled, between⟩, here, whole⟩ := bind_eq_ok.mp whole
      obtain ⟨⟨more, last⟩, followed, whole⟩ := bind_eq_ok.mp whole
      obtain ⟨rfl, rfl⟩ := Prod.mk.inj (Except.ok.inj whole)
      exact ⟨settled, between, more ++ rest, here, ih.mpr ⟨more, last, rest, followed, settles, rfl⟩, List.append_assoc ..⟩

theorem supply_of_fixed {token : Nat} {stop : Option Nat} (fixed : a.grammar.isFixed token = true)
    (passed : stop ≠ some token) : a.grammar.supply stop (.terminal token :: stack) =
      (⟨token, .none⟩ :: (a.grammar.supply stop stack).1, (a.grammar.supply stop stack).2) := by
  rw [Numbered.supply]
  simp [fixed, passed]

private theorem knows_of_payloadFits {leaf : Leaf} (fits : a.payloadFits leaf = true) : a.knows leaf.token = true := by
  simp only [payloadFits] at fits
  split at fits
  all_goals simp_all [knows]

private theorem eq_of_isFixed {leaf : Leaf} (fits : a.payloadFits leaf = true)
    (fixed : a.grammar.isFixed leaf.token = true) : leaf = ⟨leaf.token, .none⟩ := by
  obtain ⟨token, payload⟩ := leaf
  simp only [payloadFits, Numbered.isFixed] at fits fixed
  split at fits
  all_goals simp_all

/-- A shift is followed if its token is on top of the stack, once the fixed terminals above it are supplied. -/
theorem replayEvent_shift_iff {leaf : Leaf} {position : Nat} {front : List Leaf} {remaining : NumberedSymbols} :
    a.replayEvent order position (.shift leaf) stack = .ok (front, remaining) ↔
      ∃ fixed, a.grammar.supply (some leaf.token) stack = (fixed, .terminal leaf.token :: remaining) ∧
        a.payloadFits leaf = true ∧ front = fixed ++ [leaf] := by
  constructor
  · intro here
    rw [replayEvent] at here
    split at here
    · cases here
    · cases supplied : a.grammar.supply (some leaf.token) stack with
      | mk fixed between =>
        rw [supplied] at here
        dsimp only at here
        split at here
        · cases here
        · cases here
        next expected rest =>
          split at here
          · cases here
          next equal =>
            obtain rfl := not_not.mp equal
            split at here
            next fits =>
              obtain ⟨rfl, rfl⟩ := Prod.mk.inj (Except.ok.inj here)
              exact ⟨fixed, rfl, fits, rfl⟩
            · cases here
  · intro ⟨fixed, supplied, fits, same⟩
    simp [replayEvent, knows_of_payloadFits fits, supplied, fits, same]

/-- A rule is followed if its left-hand side is on top of the stack, once the fixed terminals above it are supplied. -/
theorem replayEvent_reduce_iff {rule position : Nat} {front : List Leaf} {remaining : NumberedSymbols} :
    a.replayEvent order position (.reduce rule) stack = .ok (front, remaining) ↔
      ∃ production rest, a.grammar.rules[rule]? = some production ∧
        a.grammar.supply none stack = (front, .nonterminal production.lhs :: rest) ∧
        remaining = children order production ++ rest := by
  constructor
  · intro here
    rw [replayEvent] at here
    cases supplied : a.grammar.supply none stack with
    | mk fixed between =>
      rw [supplied] at here
      dsimp only at here
      split at here
      · cases here
      · cases here
      next expected rest =>
        rw [replayReduce] at here
        split at here
        · cases here
        next production known =>
          split at here
          next same =>
            obtain ⟨rfl, rfl⟩ := Prod.mk.inj (Except.ok.inj here)
            subst same
            exact ⟨production, rest, known, rfl, rfl⟩
          · cases here
  · intro ⟨production, rest, known, supplied, same⟩
    simp [replayEvent, supplied, replayReduce, known, same, bind, Except.bind, pure, Except.pure]

private theorem replayEvent_shift {leaf : Leaf} (fits : a.payloadFits leaf = true) (position : Nat) :
    a.replayEvent order position (.shift leaf) (.terminal leaf.token :: stack) = .ok ([leaf], stack) :=
  replayEvent_shift_iff.mpr ⟨[], by simp [Numbered.supply], fits, rfl⟩

private theorem replayEvent_reduce {rule : Nat} {production : Rule} (known : a.grammar.rules[rule]? = some production)
    (position : Nat) : a.replayEvent order position (.reduce rule) (.nonterminal production.lhs :: stack) =
      .ok ([], children order production ++ stack) :=
  replayEvent_reduce_iff.mpr ⟨production, stack, known, rfl, rfl⟩

/-- An event that is not taken by a fixed terminal in front is followed as before, and the terminal is supplied. -/
private theorem replayEvent_supply {token position : Nat} {event : Event} {front : List Leaf}
    {remaining : NumberedSymbols} (fixed : a.grammar.isFixed token = true)
    (apart : ∀ leaf, event = .shift leaf → leaf.token ≠ token)
    (here : a.replayEvent order position event stack = .ok (front, remaining)) :
    a.replayEvent order position event (.terminal token :: stack) = .ok (⟨token, .none⟩ :: front, remaining) := by
  cases event with
  | accept => cases here
  | reduce rule =>
    obtain ⟨production, rest, known, supplied, rfl⟩ := replayEvent_reduce_iff.mp here
    exact replayEvent_reduce_iff.mpr ⟨production, rest, known, by rw [supply_of_fixed fixed (by simp), supplied], rfl⟩
  | shift leaf =>
    have other := apart leaf rfl
    obtain ⟨before, supplied, fits, rfl⟩ := replayEvent_shift_iff.mp here
    exact replayEvent_shift_iff.mpr
      ⟨⟨token, .none⟩ :: before, by rw [supply_of_fixed fixed (by simpa using other), supplied], fits, rfl⟩

/-- A fixed terminal in front is supplied before the next event, unless this is its shift. -/
private theorem Settles.supply {token : Nat} {followed : List (Event × Nat)} (fixed : a.grammar.isFixed token = true)
    (apart : ∀ leaf, (followed.map Prod.fst).head? = some (.shift leaf) → leaf.token ≠ token)
    (settles : a.Settles order followed stack leaves) :
    a.Settles order followed (.terminal token :: stack) (⟨token, .none⟩ :: leaves) := by
  cases followed with
  | nil => rw [settles_nil, supply_of_fixed fixed (by simp), settles_nil.mp settles]
  | cons first followed =>
    obtain ⟨event, position⟩ := first
    obtain ⟨front, remaining, rest, here, settled, rfl⟩ := settles_cons.mp settles
    have taken := replayEvent_supply fixed (fun leaf same => apart leaf (congrArg some same)) here
    exact settles_cons.mpr ⟨_, remaining, rest, taken, settled, rfl⟩

private theorem Unfolds.mem_leaves (unfolds : a.Unfolds order symbols events leaves) {leaf : Leaf}
    (member : .shift leaf ∈ events) : leaf ∈ leaves := by
  induction unfolds with
  | nil => cases member
  | shift other _ ih =>
    rcases List.mem_cons.mp member with same | later
    · obtain rfl := Event.shift.inj same
      exact List.mem_cons_self ..
    · exact List.mem_cons_of_mem _ (ih later)
  | reduce _ _ ih =>
    rcases List.mem_cons.mp member with same | later
    · cases same
    · exact ih later

/-- The leaves come back from whatever is kept of the events. -/
theorem Unfolds.settles (unfolds : a.Unfolds order symbols events leaves)
    (fits : ∀ leaf ∈ leaves, a.payloadFits leaf = true) (thins : a.grammar.Thins events kept)
    {followed : List (Event × Nat)} (same : followed.map Prod.fst = kept) : a.Settles order followed symbols leaves := by
  induction unfolds generalizing kept followed with
  | nil =>
    cases thins
    obtain rfl := List.map_eq_nil_iff.mp same
    exact settles_nil.mpr rfl
  | @reduce symbols events leaves rule production known _ ih =>
    cases thins with
    | keep _ later =>
      obtain ⟨⟨_, position⟩, followed, rfl, rfl, rest⟩ := List.map_eq_cons_iff.mp same
      exact settles_cons.mpr ⟨[], _, leaves, replayEvent_reduce known position, ih fits later rest, rfl⟩
  | @shift symbols events leaves leaf unfolds ih =>
    obtain ⟨here, others⟩ := List.forall_mem_cons.mp fits
    cases thins with
    | keep _ later =>
      obtain ⟨⟨_, position⟩, followed, rfl, rfl, rest⟩ := List.map_eq_cons_iff.mp same
      exact settles_cons.mpr ⟨[leaf], symbols, leaves, replayEvent_shift here position, ih others later rest, rfl⟩
    | drop fixed later =>
      have bare := eq_of_isFixed here fixed
      by_cases taken : ∃ other rest, kept = .shift other :: rest ∧ other.token = leaf.token
      · obtain ⟨other, kept, rfl, equal⟩ := taken
        obtain ⟨⟨_, position⟩, followed, rfl, rfl, rest⟩ := List.map_eq_cons_iff.mp same
        have inside := others other (unfolds.mem_leaves (later.mem (List.mem_cons_self ..)))
        rw [← equal] at fixed
        obtain rfl : other = leaf := by rw [bare, ← equal, ← eq_of_isFixed inside fixed]
        exact settles_cons.mpr ⟨[other], symbols, leaves, replayEvent_shift here position,
          ih others (later.tail fixed) rest, rfl⟩
      · have apart : ∀ other, kept.head? = some (.shift other) → other.token ≠ leaf.token := by
          intro other first equal
          obtain ⟨rest, whole⟩ := List.head?_eq_some_iff.mp first
          exact taken ⟨other, rest, whole, equal⟩
        rw [bare]
        exact (ih others later same).supply fixed (same ▸ apart)

theorem findIdx?_append_accept {events : List Event} (closed : .accept ∉ events) :
    (events ++ [Event.accept]).findIdx? (· = Event.accept) = some events.length := by
  have before : events.findIdx? (· = Event.accept) = none := by
    rw [List.findIdx?_eq_none_iff]
    intro event member
    simpa using fun equal : event = .accept => closed (equal ▸ member)
  rw [List.findIdx?_append, before]
  simp

private theorem replay_append_accept {events : List Event} (closed : .accept ∉ events)
    (settles : a.Settles order (order.arrange events.zipIdx) [.nonterminal a.grammar.start] leaves) :
    a.replay order (events ++ [.accept]) = .ok (order.arrange leaves) := by
  obtain ⟨front, remaining, rest, whole, supplied, rfl⟩ := settles
  rw [replay, findIdx?_append_accept closed]
  cases order <;>
    simp_all [Order.arrange, bind, Except.bind, pure, Except.pure]

end Automaton

namespace Forest

theorem accept_not_mem_listing (order : Order) (forest : Forest) : Event.accept ∉ forest.listing order := by
  induction forest with
  | nil => simp [listing]
  | leaf first rest ih => simp [listing, ih]
  | node rule children rest below ih => cases order <;> simp [listing, below, ih]

end Forest

/-- Whatever is kept of the events of a tree leads back to its leaves. -/
theorem Automaton.replay_of_tree {a : Automaton} {order : Order} {forest : Forest} {kept : List Event}
    (tree : forest.Of a.grammar [.nonterminal a.grammar.start]) (fits : ∀ leaf ∈ forest.leaves, a.payloadFits leaf = true)
    (thins : a.grammar.Thins (forest.listing order ++ [.accept]) kept) : a.replay order kept = .ok forest.leaves := by
  obtain ⟨rest, rfl, body⟩ := thins.exists_of_append (by simp)
  have closed : .accept ∉ rest := fun member => forest.accept_not_mem_listing order (body.mem member)
  have fits' : ∀ leaf ∈ order.arrange forest.leaves, a.payloadFits leaf = true := fun leaf member =>
    fits leaf (Order.mem_arrange.mp member)
  have followed : (order.arrange rest.zipIdx).map Prod.fst = order.arrange rest := by
    rw [Order.map_arrange, List.zipIdx_map_fst]
  have settles := (unfolds_listing tree order).settles fits' (body.arrange order) followed
  rw [Order.arrange_singleton] at settles
  rw [replay_append_accept closed settles, Order.arrange_arrange]

namespace Grammar

/-- Replaying undoes parsing, whichever shifts of fixed terminals are left out. -/
theorem replay_parse {g : Grammar} {a : Automaton} (built : g.automaton = .ok a) {order : Order}
    {leaves : List Leaf} {events kept : List Event} (parsed : a.parse order leaves = .ok events)
    (thins : a.grammar.Thins events kept) : a.replay order kept = .ok leaves := by
  have table := automaton_tabulates built
  obtain ⟨fits, forest, tree, rfl, rfl⟩ := (Automaton.parse_eq_ok_iff table g.number_lawful order).mp parsed
  rw [← table.grammar] at tree
  exact Automaton.replay_of_tree tree fits thins

theorem replay_parse_errand : ∃ a, errand.automaton = .ok a ∧
    a.replay .topDown [.reduce 0, .reduce 3, .reduce 2, .reduce 1, .shift ⟨5, .index 1⟩, .shift ⟨6, .span 2 3⟩, .accept] =
      .ok [⟨3, .none⟩, ⟨4, .none⟩, ⟨5, .index 1⟩, ⟨6, .span 2 3⟩] := by
  obtain ⟨a, built⟩ := errand_automaton
  have run : (errand.automaton.toOption.bind fun a =>
      (a.parse .topDown [⟨3, .none⟩, ⟨4, .none⟩, ⟨5, .index 1⟩, ⟨6, .span 2 3⟩]).toOption) =
      some [.reduce 0, .shift ⟨3, .none⟩, .reduce 3, .reduce 2, .reduce 1, .shift ⟨4, .none⟩, .shift ⟨5, .index 1⟩,
        .shift ⟨6, .span 2 3⟩, .accept] := by decide +kernel
  rw [built] at run
  have fixed : a.grammar.isFixed 3 = true ∧ a.grammar.isFixed 4 = true := by
    rw [(automaton_tabulates built).grammar]
    decide +kernel
  exact ⟨a, built, replay_parse built (eq_ok_of_toOption run) (.keep _ (.drop fixed.1 (.keep _ (.keep _ (.keep _
    (.drop fixed.2 (.keep _ (.keep _ (.keep _ .nil)))))))))⟩

end Grammar

end CommandLang
