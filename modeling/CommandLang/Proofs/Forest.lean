import CommandLang.Parse.Run
import CommandLang.Proofs.Derivation
import CommandLang.Proofs.Nullable

/-! Derivation trees. A forest is a sequence of trees, each given with the trees beside it, so one induction goes
through children and neighbours alike. A sequence is derived if it is the leaves of a forest, and the
two orders of events list the same forest. -/

namespace CommandLang

def Event.mapLeaf (f : Leaf → Leaf) : Event → Event
  | .shift leaf => .shift (f leaf)
  | event => event

def Event.leaf? : Event → Option Leaf
  | .shift leaf => some leaf
  | _ => none

inductive Forest where
  | nil
  | leaf (first : Leaf) (rest : Forest)
  | node (rule : Nat) (children rest : Forest)
deriving DecidableEq

namespace Forest

def leaves : Forest → List Leaf
  | nil => []
  | leaf first rest => first :: rest.leaves
  | node _ children rest => children.leaves ++ rest.leaves

/-- The events of a forest, a rule behind or before the events of its children. -/
def listing (order : Order) : Forest → List Event
  | nil => []
  | leaf first rest => .shift first :: rest.listing order
  | node rule children rest =>
    match order with
    | .bottomUp => children.listing order ++ .reduce rule :: rest.listing order
    | .topDown => .reduce rule :: (children.listing order ++ rest.listing order)

def append : Forest → Forest → Forest
  | nil, other => other
  | leaf first rest, other => leaf first (rest.append other)
  | node rule children rest, other => node rule children (rest.append other)

@[simp] theorem leaves_append (forest other : Forest) : (forest.append other).leaves = forest.leaves ++ other.leaves := by
  induction forest with
  | nil => rfl
  | leaf first rest ih => simp [append, leaves, ih]
  | node rule children rest _ ih => simp [append, leaves, ih]

@[simp] theorem listing_append (order : Order) (forest other : Forest) :
    (forest.append other).listing order = forest.listing order ++ other.listing order := by
  induction forest with
  | nil => rfl
  | leaf first rest ih => simp [append, listing, ih]
  | node rule children rest _ ih => cases order <;> simp [append, listing, ih]

def map (f : Leaf → Leaf) : Forest → Forest
  | nil => nil
  | leaf first rest => leaf (f first) (rest.map f)
  | node rule children rest => node rule (children.map f) (rest.map f)

@[simp] theorem leaves_map (f : Leaf → Leaf) (forest : Forest) : (forest.map f).leaves = forest.leaves.map f := by
  induction forest with
  | nil => rfl
  | leaf first rest ih => simp [map, leaves, ih]
  | node rule children rest below ih => simp [map, leaves, below, ih]

@[simp] theorem listing_map (f : Leaf → Leaf) (order : Order) (forest : Forest) :
    (forest.map f).listing order = (forest.listing order).map (Event.mapLeaf f) := by
  induction forest with
  | nil => rfl
  | leaf first rest ih => simp [map, listing, Event.mapLeaf, ih]
  | node rule children rest below ih => cases order <;> simp [map, listing, Event.mapLeaf, below, ih]

theorem filterMap_leaf?_listing (order : Order) (forest : Forest) :
    (forest.listing order).filterMap Event.leaf? = forest.leaves := by
  induction forest with
  | nil => rfl
  | leaf first rest ih => simp [listing, leaves, Event.leaf?, ih]
  | node rule children rest below ih => cases order <;> simp [listing, leaves, List.filterMap_cons, Event.leaf?, below, ih]

/-- The roots of a forest are the given symbols, and below each rule stand the trees of its right-hand side. -/
inductive Of (g : Numbered) : NumberedSymbols → Forest → Prop where
  | nil : Of g [] nil
  | leaf {first : Leaf} {symbols : NumberedSymbols} {rest : Forest} (later : Of g symbols rest) :
      Of g (.terminal first.token :: symbols) (leaf first rest)
  | node {rule : Nat} {production : Rule} {symbols : NumberedSymbols} {children rest : Forest}
      (known : g.rules[rule]? = some production) (below : Of g production.rhs children) (later : Of g symbols rest) :
      Of g (.nonterminal production.lhs :: symbols) (node rule children rest)

namespace Of

variable {g : Numbered} {symbols : NumberedSymbols} {forest : Forest}

theorem append {left right : NumberedSymbols} {first second : Forest} (one : first.Of g left) (other : second.Of g right) :
    (first.append second).Of g (left ++ right) := by
  induction one with
  | nil => exact other
  | leaf _ ih => exact .leaf ih
  | node known below _ _ ih => exact .node known below ih

theorem split {left right : NumberedSymbols} (tree : forest.Of g (left ++ right)) :
    ∃ first second : Forest, forest = first.append second ∧ first.Of g left ∧ second.Of g right := by
  induction left generalizing forest with
  | nil => exact ⟨.nil, forest, rfl, .nil, tree⟩
  | cons symbol left ih =>
    cases tree with
    | leaf later =>
      obtain ⟨first, second, rfl, one, other⟩ := ih later
      exact ⟨.leaf _ first, second, rfl, .leaf one, other⟩
    | node known below later =>
      obtain ⟨first, second, rfl, one, other⟩ := ih later
      exact ⟨.node _ _ first, second, rfl, .node known below one, other⟩

theorem derives (tree : forest.Of g symbols) :
    Derives g.HasRule symbols (forest.leaves.map fun leaf => .terminal leaf.token) := by
  induction tree with
  | nil => exact .refl
  | leaf _ ih => exact ih.append_left [_]
  | @node rule production symbols children rest known _ _ below later =>
    have ruled : g.HasRule production.lhs production.rhs := Array.mem_of_getElem? known
    have here := (Derives.of_rule ruled).trans below
    simpa [leaves] using Derives.append here later

theorem map {f : Leaf → Leaf} (tree : forest.Of g symbols) (tokens : ∀ leaf, (f leaf).token = leaf.token) :
    (forest.map f).Of g symbols := by
  induction tree with
  | nil => exact .nil
  | @leaf first symbols rest _ ih =>
    rw [← tokens first]
    exact .leaf ih
  | node known _ _ below later => exact .node known below later

theorem mem_listing {order : Order} {event : Event} (tree : forest.Of g symbols) (member : event ∈ forest.listing order) :
    (∃ leaf ∈ forest.leaves, event = .shift leaf) ∨ ∃ rule < g.rules.size, event = .reduce rule := by
  induction tree with
  | nil => cases member
  | @leaf first _ _ _ ih =>
    rcases List.mem_cons.mp member with rfl | later
    · exact Or.inl ⟨first, List.mem_cons_self .., rfl⟩
    · refine (ih later).imp_left ?_
      rintro ⟨leaf, held, rfl⟩
      exact ⟨leaf, List.mem_cons_of_mem _ held, rfl⟩
  | @node rule _ _ children rest known _ _ below later =>
    have parts : event ∈ children.listing order ∨ event = .reduce rule ∨ event ∈ rest.listing order := by
      cases order with
      | bottomUp => simpa [listing] using member
      | topDown => simpa [listing, or_left_comm] using member
    rcases parts with inside | rfl | inside
    · refine (below inside).imp_left ?_
      rintro ⟨leaf, held, rfl⟩
      exact ⟨leaf, List.mem_append_left _ held, rfl⟩
    · exact Or.inr ⟨rule, (Array.getElem?_eq_some_iff.mp known).1, rfl⟩
    · refine (later inside).imp_left ?_
      rintro ⟨leaf, held, rfl⟩
      exact ⟨leaf, List.mem_append_right _ held, rfl⟩

/-- A derivation that ends in leaves has a forest. -/
theorem of_derives {leaves : List Leaf}
    (derived : Derives g.HasRule symbols (leaves.map fun leaf => .terminal leaf.token)) :
    ∃ forest : Forest, forest.Of g symbols ∧ forest.leaves = leaves := by
  generalize result : (leaves.map fun leaf => Symbol.terminal leaf.token) = after at derived
  induction derived using Relation.ReflTransGen.head_induction_on with
  | refl =>
    subst result
    induction leaves with
    | nil => exact ⟨.nil, .nil, rfl⟩
    | cons first rest ih =>
      obtain ⟨forest, tree, rfl⟩ := ih
      exact ⟨.leaf first forest, .leaf tree, rfl⟩
  | head step _ ih =>
    obtain ⟨forest, tree, rfl⟩ := ih
    cases step with
    | @intro front back lhs rhs ruled =>
      obtain ⟨rule, known⟩ := Array.mem_iff_getElem?.mp ruled
      obtain ⟨before, rest, rfl, one, other⟩ := tree.split
      obtain ⟨first, children, rfl, left, below⟩ := one.split
      refine ⟨first.append (.node rule children rest), left.append (.node known below other), ?_⟩
      simp [leaves]

end Of

def parts : Forest → List (List Event)
  | nil => []
  | leaf first rest => [.shift first] :: rest.parts
  | node rule children rest => (.reduce rule :: children.parts.flatten) :: rest.parts

@[simp] theorem flatten_parts (forest : Forest) : forest.parts.flatten = forest.listing .topDown := by
  induction forest with
  | nil => rfl
  | leaf first rest ih => simp [parts, listing, ih]
  | node rule children rest below ih => simp [parts, listing, ih, below]

theorem Of.length_parts {g : Numbered} {symbols : NumberedSymbols} {forest : Forest} (tree : forest.Of g symbols) :
    forest.parts.length = symbols.length := by
  induction tree with
  | nil => rfl
  | leaf _ ih => simp [parts, ih]
  | node _ _ _ _ ih => simp [parts, ih]

/-- Gathering bottom-up events leaves the top-down events of each tree on the stack, the last tree first. -/
theorem Of.foldl_gather {a : Automaton} {symbols : NumberedSymbols} {forest : Forest} (tree : forest.Of a.grammar symbols)
    (trees : List (List Event)) :
    (forest.listing .bottomUp).foldl a.gather trees = forest.parts.reverse ++ trees := by
  induction tree generalizing trees with
  | nil => rfl
  | leaf _ ih => simp [listing, parts, ih, Automaton.gather]
  | @node rule production symbols children rest known below _ ih later =>
    have arity := below.length_parts
    rw [← List.length_reverse] at arity
    have reduced : a.gather (children.parts.reverse ++ trees) (.reduce rule) =
        (.reduce rule :: children.parts.flatten) :: trees := by
      simp only [Automaton.gather, known, Option.map_some, Option.getD_some, ← arity, List.take_left', List.drop_left',
        List.reverse_reverse]
    simp only [listing, List.foldl_append, List.foldl_cons, ih, reduced, later, parts, List.reverse_cons,
      List.append_assoc, List.cons_append, List.nil_append]

theorem Of.preorder_listing {a : Automaton} {symbols : NumberedSymbols} {forest : Forest}
    (tree : forest.Of a.grammar symbols) :
    a.preorder (forest.listing .bottomUp ++ [.accept]) = forest.listing .topDown ++ [.accept] := by
  simp [Automaton.preorder, List.foldl_append, tree.foldl_gather, Automaton.gather]

end Forest

end CommandLang
