import CommandLang.Automaton.Survey
import CommandLang.Proofs.Augmented
import CommandLang.Proofs.Rows

/-! What an item set asks for on a token: to shift it, to reduce a rule, or to accept. The codes of a
state lead to the item sets behind its symbols, and its reductions are the ones it asks for. -/

namespace CommandLang

inductive Move where
  | shift
  | reduce (rule : Nat)
  | accept
deriving DecidableEq

/-- A token is shifted if an item expects it, a rule that was seen as a whole is reduced on all tokens that
can follow, and the input is accepted where its end is expected. -/
inductive Numbered.Asks (g : Numbered) (items : Set Item) : Nat → Move → Prop where
  | shift {item : Item} {token : Nat} (member : item ∈ items) (next : g.next? item = some (.terminal token))
      (passed : token ≠ Token.eos) : Asks g items token .shift
  | reduce {rule token : Nat} {production : Rule} (member : ⟨rule, production.rhs.length⟩ ∈ items)
      (known : g.rules[rule]? = some production) (follows : g.Follows production.lhs token) :
      Asks g items token (.reduce rule)
  | accept (member : ⟨g.rules.size - 1, 1⟩ ∈ items) : Asks g items Token.eos .accept

/-- Two moves are asked for on one token. -/
def Numbered.Clashing (g : Numbered) (items : Set Item) : Prop :=
  ∃ token first second, g.Asks items token first ∧ g.Asks items token second ∧ first ≠ second

/-- What reducing a rule of the augmented grammar comes to. -/
def Numbered.moveOf (g : Numbered) (rule : Nat) : Move := if rule = g.rules.size then .accept else .reduce rule

theorem Numbered.moveOf_inj {g : Numbered} {rule other : Nat} : g.moveOf rule = g.moveOf other ↔ rule = other := by
  unfold moveOf
  split <;> split <;> simp_all [eq_comm]

namespace Numbered.Lawful

variable {g : Numbered} (lawful : g.Lawful)

include lawful

theorem accepts_iff {code : Nat} :
    g.augment.blueprint.accepts code = true ↔ Item.ofCode g.augment.itemWidth code = ⟨g.rules.size, 1⟩ := by
  have wide : 1 < g.augment.itemWidth := by
    have expected := dot_lt_width (lawful.next?_eos.mpr rfl)
    exact Nat.lt_of_le_of_lt (Nat.le_add_left 1 1) expected
  have place : Item.ofCode g.augment.itemWidth (g.rules.size * g.augment.itemWidth + 1) = ⟨g.rules.size, 1⟩ :=
    Item.ofCode_code ⟨g.rules.size, 1⟩ wide
  have accepts : g.augment.blueprint.accepts code = true ↔ code = g.rules.size * g.augment.itemWidth + 1 := by
    rw [Blueprint.accepts, Blueprint.acceptRule, beq_iff_eq]
    exact iff_of_eq (congrArg (fun size => code = size * g.augment.itemWidth + 1) augment_size)
  rw [accepts, ← place, Item.ofCode_inj]

theorem advance?_eq_some {code after : Nat} {symbol : Symbol Nat Nat} :
    g.augment.blueprint.advance? code = some (symbol, after) ↔
      g.augment.next? (Item.ofCode g.augment.itemWidth code) = some symbol ∧ symbol ≠ .terminal Token.eos ∧
        after = code + 1 := by
  rw [Blueprint.advance?]
  split
  next whole =>
    have last := lawful.next?_eos.mpr (lawful.accepts_iff.mp whole)
    simp only [last, Option.some.injEq, reduceCtorEq, false_iff, not_and]
    intro same apart
    exact absurd same.symm apart
  next partly =>
    rw [Blueprint.next?_eq, Option.map_eq_some_iff]
    simp only [Prod.mk.injEq]
    constructor
    · rintro ⟨symbol, next, rfl, rfl⟩
      refine ⟨next, ?_, rfl⟩
      rintro rfl
      exact partly (lawful.accepts_iff.mpr (lawful.next?_eos.mp next))
    · rintro ⟨next, _, rfl⟩
      exact ⟨symbol, next, rfl, rfl⟩

theorem itemsOf_membersOf {codes : List Nat} {symbol : Symbol Nat Nat} (passed : symbol ≠ .terminal Token.eos) :
    g.augment.blueprint.itemsOf (membersOf symbol (codes.filterMap g.augment.blueprint.advance?)) =
      g.augment.advanced (g.augment.blueprint.itemsOf codes) symbol := by
  ext item
  simp only [Blueprint.itemsOf, membersOf, List.mem_map, List.mem_filter, List.mem_filterMap, decide_eq_true_eq,
    Prod.exists, Set.mem_ofPred_eq, Numbered.advanced]
  constructor
  · rintro ⟨after, ⟨_, _, ⟨⟨code, member, found⟩, rfl⟩, rfl⟩, rfl⟩
    obtain ⟨next, _, rfl⟩ := lawful.advance?_eq_some.mp found
    exact ⟨_, ⟨code, member, rfl⟩, next, Blueprint.ofCode_succ next⟩
  · rintro ⟨_, ⟨code, member, rfl⟩, next, rfl⟩
    exact ⟨code + 1, ⟨symbol, code + 1, ⟨⟨code, member, lawful.advance?_eq_some.mpr ⟨next, passed, rfl⟩⟩, rfl⟩, rfl⟩,
      Blueprint.ofCode_succ next⟩

theorem mem_kernels {codes kernel : List Nat} {symbol : Symbol Nat Nat} :
    (symbol, kernel) ∈ g.augment.blueprint.kernels codes ↔
      g.augment.Expects (g.augment.blueprint.itemsOf codes) symbol ∧
      kernel = membersOf symbol (codes.filterMap g.augment.blueprint.advance?) := by
  rw [Blueprint.kernels_eq]
  simp only [List.mem_map, List.mem_eraseDups, List.mem_filterMap, Prod.exists, exists_and_right, exists_eq_right,
    Prod.mk.injEq, lawful.advance?_eq_some]
  constructor
  · rintro ⟨_, ⟨_, code, member, next, passed, rfl⟩, rfl, rfl⟩
    exact ⟨⟨passed, _, ⟨code, member, rfl⟩, next⟩, rfl⟩
  · rintro ⟨⟨passed, _, ⟨code, member, rfl⟩, next⟩, rfl⟩
    exact ⟨symbol, ⟨code + 1, code, member, next, passed, rfl⟩, rfl, rfl⟩

private theorem reduction?_eq_some {code : Nat} {reduction : Reduction} :
    g.augment.blueprint.reduction? code = some reduction ↔
      (Item.ofCode g.augment.itemWidth code = ⟨g.rules.size, 1⟩ ∧
        reduction = ⟨g.rules.size, .ofList [Token.eos]⟩) ∨
      (Item.ofCode g.augment.itemWidth code ≠ ⟨g.rules.size, 1⟩ ∧ ∃ rule production,
        Item.ofCode g.augment.itemWidth code = ⟨rule, production.rhs.length⟩ ∧
        g.augment.rules[rule]? = some production ∧
        reduction = ⟨rule, (g.augment.lookahead.follow[production.lhs]?).getD ∅⟩) := by
  rw [Blueprint.reduction?]
  split
  next whole =>
    have last : g.augment.blueprint.acceptRule = g.rules.size := augment_size
    simp [lawful.accepts_iff.mp whole, last, eq_comm]
  next partly =>
    have elsewhere : Item.ofCode g.augment.itemWidth code ≠ ⟨g.rules.size, 1⟩ := fun last =>
      partly (lawful.accepts_iff.mpr last)
    constructor
    · intro found
      refine Or.inr ⟨elsewhere, ?_⟩
      split at found
      · cases found
      next production known =>
        obtain ⟨whole, same⟩ := Option.ite_none_right_eq_some.mp found
        exact ⟨_, production, congrArg (Item.mk _) whole, known, (Option.some.inj same).symm⟩
    · rintro (⟨last, _⟩ | ⟨_, rule, production, place, known, rfl⟩)
      · exact absurd last elsewhere
      · obtain ⟨same, whole⟩ := Item.mk.inj place
        have ruled : g.augment.blueprint.grammar.rules[code / g.augment.blueprint.width]? = some production := by
          rw [← known, ← same]
          rfl
        rw [ruled]
        refine Option.ite_none_right_eq_some.mpr ⟨whole, ?_⟩
        exact congrArg (fun rule => some (Reduction.mk rule _)) same

theorem mem_reductions {codes : List Nat} {rule token : Nat} :
    (∃ reduction ∈ codes.filterMap g.augment.blueprint.reduction?, reduction.rule = rule ∧ token ∈ reduction.tokens) ↔
      g.augment.Asks (g.augment.blueprint.itemsOf codes) token (g.moveOf rule) := by
  constructor
  · rintro ⟨reduction, member, rfl, inside⟩
    obtain ⟨code, present, found⟩ := List.mem_filterMap.mp member
    have item : Item.ofCode g.augment.itemWidth code ∈ g.augment.blueprint.itemsOf codes := ⟨code, present, rfl⟩
    rcases lawful.reduction?_eq_some.mp found with ⟨place, rfl⟩ | ⟨_, rule, production, place, known, rfl⟩
    · rw [moveOf, if_pos rfl]
      obtain rfl := List.mem_singleton.mp (IdSet.mem_ofList.mp inside)
      exact .accept (by rw [augment_size, ← place]; exact item)
    · have follows := (mem_follow lawful.augment_defined).mp inside
      rw [moveOf, if_neg (lawful.ne_size_of_follows known follows)]
      exact .reduce (place ▸ item) known follows
  · intro asks
    generalize same : g.moveOf rule = move at asks
    rw [moveOf] at same
    cases asks with
    | shift member next passed => split at same <;> cases same
    | accept member =>
      split at same
      next last =>
        obtain ⟨code, present, place⟩ := member
        rw [augment_size] at place
        exact ⟨_, List.mem_filterMap.mpr ⟨code, present, lawful.reduction?_eq_some.mpr (Or.inl ⟨place, rfl⟩)⟩,
          last.symm, IdSet.mem_ofList.mpr (by simp)⟩
      · cases same
    | @reduce other _ production member known follows =>
      split at same
      · cases same
      next apart =>
        obtain rfl := Move.reduce.inj same
        obtain ⟨code, present, place⟩ := member
        have elsewhere : Item.ofCode g.augment.itemWidth code ≠ ⟨g.rules.size, 1⟩ := fun last =>
          apart (congrArg Item.rule (place.symm.trans last))
        exact ⟨_, List.mem_filterMap.mpr ⟨code, present,
          lawful.reduction?_eq_some.mpr (Or.inr ⟨elsewhere, rule, production, place, known, rfl⟩)⟩,
          rfl, (mem_follow lawful.augment_defined).mpr follows⟩

theorem asks_cases {items : Set Item} {token : Nat} {move : Move} (asks : g.augment.Asks items token move) :
    move = .shift ∨ ∃ rule, move = g.moveOf rule := by
  cases asks with
  | shift => exact Or.inl rfl
  | accept => exact Or.inr ⟨g.rules.size, by simp [moveOf]⟩
  | @reduce rule _ production _ known follows =>
    exact Or.inr ⟨rule, by rw [moveOf, if_neg (lawful.ne_size_of_follows known follows)]⟩

private theorem reduction?_inj {code other : Nat} {early late : Reduction} {token : Nat}
    (first : g.augment.blueprint.reduction? code = some early)
    (second : g.augment.blueprint.reduction? other = some late)
    (same : early.rule = late.rule) (earlier : token ∈ early.tokens) (later : token ∈ late.tokens) : code = other := by
  have unreduced : ∀ production, g.augment.rules[g.rules.size]? = some production →
      token ∉ (g.augment.lookahead.follow[production.lhs]?).getD ∅ := fun production known inside =>
    lawful.ne_size_of_follows known ((mem_follow lawful.augment_defined).mp inside) rfl
  rw [← @Item.ofCode_inj g.augment.itemWidth]
  rcases lawful.reduction?_eq_some.mp first with ⟨place, rfl⟩ | ⟨_, rule, production, place, known, rfl⟩ <;>
    rcases lawful.reduction?_eq_some.mp second with ⟨place', rfl⟩ | ⟨_, rule', production', place', known', rfl⟩
  · rw [place, place']
  · subst same
    exact absurd later (unreduced production' known')
  · subst same
    exact absurd earlier (unreduced production known)
  · subst same
    obtain rfl := Option.some.inj (known.symm.trans known')
    rw [place, place']

theorem clashing_of_reduceReduce? {codes : List Nat} (distinct : codes.Nodup) {token first second : Nat}
    (found : reduceReduce? (codes.filterMap g.augment.blueprint.reduction?) = some (token, first, second)) :
    g.augment.Asks (g.augment.blueprint.itemsOf codes) token (g.moveOf first) ∧
    g.augment.Asks (g.augment.blueprint.itemsOf codes) token (g.moveOf second) ∧ first ≠ second := by
  obtain ⟨front, early, middle, late, back, whole, earlier, later, rfl, rfl⟩ := exists_of_reduceReduce? found
  refine ⟨?_, ?_, ?_⟩
  · exact lawful.mem_reductions.mp ⟨early, by simp [whole], rfl, earlier⟩
  · exact lawful.mem_reductions.mp ⟨late, by simp [whole], rfl, later⟩
  · intro same
    obtain ⟨left, rest, rfl, _, tail⟩ := List.filterMap_eq_append_iff.mp whole
    obtain ⟨skipped, code, more, rfl, _, here, tail⟩ := List.filterMap_eq_cons_iff.mp tail
    obtain ⟨between, last, rfl, _, tail⟩ := List.filterMap_eq_append_iff.mp tail
    obtain ⟨skipped', other, end', rfl, _, there, _⟩ := List.filterMap_eq_cons_iff.mp tail
    obtain rfl := lawful.reduction?_inj here there same earlier later
    simp [List.nodup_append] at distinct

end Numbered.Lawful

end CommandLang
