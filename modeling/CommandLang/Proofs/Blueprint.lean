import CommandLang.Proofs.ItemSets
import Mathlib.Algebra.GroupWithZero.Nat

/-! The codes of a blueprint stand for items one to one. Its closures are the least closed sets, although
they are put together from the rules that each nonterminal leads to. -/

namespace CommandLang

theorem Item.ofCode_code {width : Nat} (item : Item) (inside : item.dot < width) :
    Item.ofCode width (item.code width) = item := by
  have positive : 0 < width := Nat.zero_lt_of_lt inside
  simp [Item.ofCode, Item.code, Nat.mul_add_div positive, Nat.mul_comm item.rule, Nat.div_eq_of_lt inside,
    Nat.mod_eq_of_lt inside]

theorem Item.code_ofCode (width code : Nat) : (Item.ofCode width code).code width = code := by
  simp [Item.ofCode, Item.code, Nat.div_add_mod']

theorem Item.ofCode_inj {width code other : Nat} : Item.ofCode width code = Item.ofCode width other ↔ code = other := by
  constructor
  · intro same
    rw [← Item.code_ofCode width code, same, Item.code_ofCode]
  · rintro rfl
    rfl

namespace Blueprint

variable {g : Numbered}

def itemsOf (b : Blueprint) (codes : List Nat) : Set Item := { item | ∃ code ∈ codes, Item.ofCode b.width code = item }

theorem ofCode_mem_itemsOf {b : Blueprint} {codes : List Nat} {code : Nat} :
    Item.ofCode b.width code ∈ b.itemsOf codes ↔ code ∈ codes := by
  constructor
  · rintro ⟨other, member, same⟩
    exact Item.ofCode_inj.mp same ▸ member
  · exact fun member => ⟨code, member, rfl⟩

theorem itemsOf_perm {b : Blueprint} {codes other : List Nat} (same : codes.Perm other) :
    b.itemsOf codes = b.itemsOf other := by
  ext item
  exact exists_congr fun code => and_congr_left fun _ => same.mem_iff

def itemSet (b : Blueprint) (set : IdSet) : Set Item := b.itemsOf set.toList

theorem itemSet_inj {b : Blueprint} {set other : IdSet} : b.itemSet set = b.itemSet other ↔ set = other := by
  constructor
  · intro same
    ext code
    rw [← IdSet.mem_toList, ← IdSet.mem_toList, ← @ofCode_mem_itemsOf b, ← @ofCode_mem_itemsOf b]
    exact iff_of_eq (congrArg (Item.ofCode b.width code ∈ ·) same)
  · rintro rfl
    rfl

theorem next?_eq (code : Nat) : g.blueprint.next? code = g.next? (Item.ofCode g.itemWidth code) := rfl

theorem ofCode_succ {code : Nat} {symbol : Symbol Nat Nat}
    (next : g.next? (Item.ofCode g.itemWidth code) = some symbol) :
    Item.ofCode g.itemWidth (code + 1) = ⟨code / g.itemWidth, code % g.itemWidth + 1⟩ := by
  have moved := Item.ofCode_code ⟨code / g.itemWidth, code % g.itemWidth + 1⟩ (Numbered.dot_lt_width next)
  rw [← moved, Item.code, ← Nat.add_assoc]
  exact congrArg _ (congrArg (· + 1) (Item.code_ofCode _ code).symm)

theorem bits_lt {set : IdSet} (proper : ∀ item ∈ g.blueprint.itemSet set, g.Proper item) :
    set.bits < 2 ^ g.blueprint.codes := by
  refine Nat.lt_pow_two_of_testBit _ ?_
  intro code far
  by_contra on
  have member : code ∈ set := IdSet.mem_iff.mpr (by simpa using on)
  obtain ⟨production, known, _⟩ := proper _ ⟨code, IdSet.mem_toList.mpr member, rfl⟩
  have inside : code / g.itemWidth < g.rules.size := (Array.getElem?_eq_some_iff.mp known).1
  exact Nat.not_lt.mpr far ((Nat.div_lt_iff_lt_mul Numbered.itemWidth_pos).mp inside)

private def Corner (g : Numbered) (a b : Nat) : Prop := ∃ rest, g.HasRule a (.nonterminal b :: rest)

private theorem mem_corners {a b : Nat} : b ∈ g.corners a ↔ Corner g a b := by
  simp only [Numbered.corners, IdSet.mem_ofList, List.mem_filterMap, List.mem_filter, decide_eq_true_eq,
    Option.bind_eq_some_iff, Corner]
  constructor
  · rintro ⟨⟨lhs, rhs⟩, ⟨inside, rfl⟩, symbol, first, found⟩
    cases symbol with
    | terminal t => cases found
    | nonterminal c =>
      obtain rfl := Option.some.inj found
      obtain ⟨rest, rfl⟩ := List.head?_eq_some_iff.mp first
      exact ⟨rest, Numbered.hasRule_iff.mpr inside⟩
  · rintro ⟨rest, known⟩
    exact ⟨⟨a, _⟩, ⟨Numbered.hasRule_iff.mp known, rfl⟩, .nonterminal b, rfl, rfl⟩

private theorem mem_fresh {a code : Nat} (inside : a < g.names.size) :
    code ∈ (g.blueprint.fresh[a]?).getD [] ↔
      ∃ rule production, g.rules[rule]? = some production ∧ production.lhs = a ∧ code = rule * g.itemWidth := by
  have entry : (g.blueprint.fresh[a]?).getD [] = (g.rulesOf a).map (· * g.itemWidth) := by
    simp [Numbered.blueprint, Numbered.blueprintWith, inside]
  simp only [entry, List.mem_map, Numbered.mem_rulesOf]
  constructor
  · rintro ⟨rule, ⟨production, known, same⟩, rfl⟩
    exact ⟨rule, production, known, same, rfl⟩
  · rintro ⟨rule, production, known, same, rfl⟩
    exact ⟨rule, ⟨production, known, same⟩, rfl⟩

private theorem mem_predicted (defined : g.Defined) {a code : Nat} (inside : a < g.names.size) :
    code ∈ (g.blueprint.predicted[a]?).getD ∅ ↔
      ∃ rule production, Relation.ReflTransGen (Corner g) a production.lhs ∧ g.rules[rule]? = some production ∧
        code = rule * g.itemWidth := by
  have known : ∀ b c, Corner g b c → c ∈ g.ruleList.map Rule.lhs := by
    rintro b c ⟨rest, ruled⟩
    obtain ⟨other, member, same⟩ := defined.ruled _ (Numbered.hasRule_iff.mp ruled) c (by simp)
    exact List.mem_map.mpr ⟨other, member, same⟩
  have table : ∀ b c, c ∈ g.corners b → b < g.names.size := by
    intro b c corner
    obtain ⟨rest, ruled⟩ := mem_corners.mp corner
    exact defined.named _ (Numbered.hasRule_iff.mp ruled)
  have path : ∀ c, c ∈ IdSet.reachable (fun b => ((IdSet.table g.names.size g.corners)[b]?).getD ∅)
      (g.rules.size + 1) a ↔ Relation.ReflTransGen (Corner g) a c := by
    intro c
    simp only [IdSet.getD_table table]
    rw [IdSet.mem_reachable (g.ruleList.map Rule.lhs)
      (fun b c corner => known b c (mem_corners.mp corner)) (by simp [Numbered.length_ruleList])]
    simp only [mem_corners]
  have entry : (g.blueprint.predicted[a]?).getD ∅ = .ofList ((IdSet.reachable
      (fun b => ((IdSet.table g.names.size g.corners)[b]?).getD ∅) (g.rules.size + 1) a).toList.flatMap
      fun b => (g.blueprint.fresh[b]?).getD []) := by
    simp [Numbered.blueprint, Numbered.blueprintWith, inside]
  simp only [entry, IdSet.mem_ofList, List.mem_flatMap, IdSet.mem_toList, path]
  constructor
  · rintro ⟨b, reached, member⟩
    have small : b < g.names.size := by
      rcases Relation.ReflTransGen.cases_tail reached with rfl | ⟨c, _, corner⟩
      · exact inside
      · obtain ⟨other, ruled, rfl⟩ := List.mem_map.mp (known c b corner)
        exact defined.named other ruled
    obtain ⟨rule, production, ruled, rfl, rfl⟩ := (mem_fresh small).mp member
    exact ⟨rule, production, reached, ruled, rfl⟩
  · rintro ⟨rule, production, reached, ruled, rfl⟩
    have small := defined.named production (Numbered.mem_ruleList_of_getElem? ruled)
    exact ⟨production.lhs, reached, (mem_fresh small).mpr ⟨rule, production, ruled, rfl, rfl⟩⟩

private theorem mem_closure_codes {kernel : List Nat} {code : Nat} :
    code ∈ g.blueprint.closure kernel ↔ code ∈ kernel ∨ ∃ source ∈ kernel, ∃ a,
      g.blueprint.next? source = some (.nonterminal a) ∧ code ∈ (g.blueprint.predicted[a]?).getD ∅ := by
  simp only [closure, IdSet.mem_union, IdSet.mem_ofList, IdSet.mem_unions, List.mem_filterMap, Option.map_eq_some_iff,
    Option.bind_eq_some_iff]
  refine or_congr Iff.rfl ⟨?_, ?_⟩
  · rintro ⟨_, ⟨source, member, a, ⟨symbol, next, found⟩, rfl⟩, inside⟩
    cases symbol with
    | terminal t => cases found
    | nonterminal b =>
      obtain rfl := Option.some.inj found
      exact ⟨source, member, b, next, inside⟩
  · rintro ⟨source, member, a, next, inside⟩
    exact ⟨_, ⟨source, member, a, ⟨_, next, rfl⟩, rfl⟩, inside⟩

private theorem ofCode_fresh (rule : Nat) : Item.ofCode g.itemWidth (rule * g.itemWidth) = ⟨rule, 0⟩ :=
  Item.ofCode_code ⟨rule, 0⟩ Numbered.itemWidth_pos

private theorem inClosure_of_corners {items : Set Item} {item : Item} {a b rule : Nat} {production : Rule}
    (member : g.InClosure items item) (next : g.next? item = some (.nonterminal a))
    (path : Relation.ReflTransGen (Corner g) a b) (known : g.rules[rule]? = some production) (lhs : production.lhs = b) :
    g.InClosure items ⟨rule, 0⟩ := by
  induction path generalizing rule production with
  | refl =>
    subst lhs
    exact .predicted member next known
  | tail _ corner ih =>
    subst lhs
    obtain ⟨rest, ruled⟩ := corner
    obtain ⟨index, found⟩ := List.mem_iff_getElem?.mp (Numbered.hasRule_iff.mp ruled)
    rw [Numbered.ruleList, Array.getElem?_toList] at found
    exact .predicted (ih found rfl) (by simp [Numbered.next?, found]) known

/-- The codes of a closure are those of the least closed set. -/
theorem itemSet_closure (defined : g.Defined) (kernel : List Nat) :
    g.blueprint.itemSet (g.blueprint.closure kernel) = g.closure (g.blueprint.itemsOf kernel) := by
  ext item
  simp only [itemSet, itemsOf, IdSet.mem_toList, Set.mem_ofPred_eq, Numbered.closure]
  constructor
  · rintro ⟨code, member, rfl⟩
    rcases mem_closure_codes.mp member with first | ⟨source, first, a, next, inside⟩
    · exact .kernel ⟨code, first, rfl⟩
    · have head : g.next? (Item.ofCode g.itemWidth source) = some (.nonterminal a) := next
      obtain ⟨rule, production, path, known, rfl⟩ := (mem_predicted defined (defined.nonterminal_lt head)).mp inside
      show g.InClosure _ (Item.ofCode g.itemWidth (rule * g.itemWidth))
      rw [ofCode_fresh]
      exact inClosure_of_corners (.kernel ⟨source, first, rfl⟩) head path known rfl
  · intro member
    induction member with
    | kernel member =>
      obtain ⟨code, inside, rfl⟩ := member
      exact ⟨code, mem_closure_codes.mpr (Or.inl inside), rfl⟩
    | @predicted item rule production _ next known ih =>
      obtain ⟨code, inside, rfl⟩ := ih
      refine ⟨rule * g.itemWidth, mem_closure_codes.mpr (Or.inr ?_), ofCode_fresh rule⟩
      rcases mem_closure_codes.mp inside with first | ⟨source, first, a, head, later⟩
      · refine ⟨code, first, production.lhs, next, ?_⟩
        exact (mem_predicted defined (defined.nonterminal_lt next)).mpr ⟨rule, production, .refl, known, rfl⟩
      · refine ⟨source, first, a, head, ?_⟩
        have front : g.next? (Item.ofCode g.itemWidth source) = some (.nonterminal a) := head
        have small := defined.nonterminal_lt front
        obtain ⟨other, before, path, ruled, rfl⟩ := (mem_predicted defined small).mp later
        refine (mem_predicted defined small).mpr ⟨rule, production, path.tail ?_, known, rfl⟩
        have front : g.next? ⟨other, 0⟩ = some (.nonterminal production.lhs) := by
          rw [← ofCode_fresh (g := g) other]
          exact next
        obtain ⟨same, found, first⟩ := Numbered.next?_eq_some.mp front
        obtain rfl := Option.some.inj (found.symm.trans ruled)
        obtain ⟨rest, whole⟩ := List.head?_eq_some_iff.mp ((List.head?_eq_getElem?).trans first)
        exact ⟨rest, Numbered.hasRule_iff.mpr (whole ▸ Numbered.mem_ruleList_of_getElem? ruled)⟩

end Blueprint

end CommandLang
