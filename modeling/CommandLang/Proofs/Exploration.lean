import CommandLang.Proofs.Moves
import Mathlib.Data.List.Nodup
import Mathlib.Data.List.Perm.Subperm
import Mathlib.Data.Set.Insert

/-! Stages of the search for states. At every stage the states that have numbers are canonical sets, and each
row tells where its state leads. A search that ends without a clash has numbered every canonical set. -/

namespace CommandLang

namespace StateList

/-- Every state of the first list has its number in the second. -/
def Extends (s t : StateList) : Prop := ∀ {number set}, s.get? number = some set → t.get? number = some set

theorem get?_inj {s : StateList} {set : IdSet} {number other : Nat} (first : s.get? number = some set)
    (second : s.get? other = some set) : number = other :=
  Option.some.inj ((number?_eq_some.mpr first).symm.trans (number?_eq_some.mpr second))

theorem isSome_get? {s : StateList} {number : Nat} : (∃ set, s.get? number = some set) ↔ number < s.size := by
  rw [← Option.isSome_iff_exists, get?, size]
  simp

theorem Extends.size_le {s t : StateList} (larger : s.Extends t) : s.size ≤ t.size := by
  by_contra fewer
  obtain ⟨set, found⟩ := isSome_get?.mpr (Nat.lt_of_not_le fewer)
  exact Nat.lt_irrefl _ (isSome_get?.mp ⟨set, larger found⟩)

private theorem of_get?_place {s : StateList} {set other : IdSet} {number : Nat}
    (found : (s.place set).2.get? number = some other) : s.get? number = some other ∨ other = set := by
  unfold place at found
  split at found
  · exact Or.inl found
  · simp only [get?, sets_add, Array.getElem?_push] at found
    split at found
    · exact Or.inr (Option.some.inj found).symm
    · exact Or.inl found

theorem placeAll_extends (s : StateList) (sets : List IdSet) : s.Extends (s.placeAll sets).2 := by
  induction sets generalizing s with
  | nil => exact fun found => found
  | cons set rest ih => exact fun found => ih _ (get?_place_of_some found)

theorem placeAll_numbers (s : StateList) (sets : List IdSet) :
    List.Forall₂ (fun set number => (s.placeAll sets).2.get? number = some set) sets (s.placeAll sets).1 := by
  induction sets generalizing s with
  | nil => exact .nil
  | cons set rest ih => exact .cons (placeAll_extends _ rest (get?_place s set)) (ih _)

theorem of_get?_placeAll {s : StateList} {sets : List IdSet} {number : Nat} {set : IdSet}
    (found : (s.placeAll sets).2.get? number = some set) : s.get? number = some set ∨ set ∈ sets := by
  induction sets generalizing s with
  | nil => exact Or.inl found
  | cons first rest ih =>
    rcases ih found with earlier | later
    · rcases of_get?_place earlier with old | rfl
      · exact Or.inl old
      · exact Or.inr (List.mem_cons_self ..)
    · exact Or.inr (List.mem_cons_of_mem _ later)

theorem size_le {s : StateList} {limit : Nat} (bounded : ∀ {number set}, s.get? number = some set → set.bits < limit) :
    s.size ≤ limit := by
  have distinct : (s.sets.toList.map IdSet.bits).Nodup := by
    refine List.Nodup.map ?_ ?_
    · rintro ⟨x⟩ ⟨y⟩ rfl
      rfl
    · rw [List.nodup_iff_getElem?_ne_getElem?]
      intro i j before inside same
      have found := List.getElem?_eq_getElem inside
      rw [Array.getElem?_toList] at found
      rw [Array.getElem?_toList, Array.getElem?_toList, found] at same
      exact Nat.ne_of_lt before (get?_inj same found)
  have small : s.sets.toList.map IdSet.bits ⊆ List.range limit := by
    intro bits member
    obtain ⟨set, inside, rfl⟩ := List.mem_map.mp member
    obtain ⟨number, found⟩ := List.mem_iff_getElem?.mp inside
    rw [Array.getElem?_toList] at found
    exact List.mem_range.mpr (bounded found)
  simpa [size] using (List.subperm_of_subset distinct small).length_le

end StateList

/-- A row answers for its state: it has the items of the state and what they ask for, and leads to the sets
behind each symbol. -/
structure Describes (g : Numbered) (states : StateList) (items : Set Item) (row : Row) : Prop where
  listed : ∀ item, item ∈ row.items ↔ item ∈ items
  distinct : row.items.Nodup
  apart : Apart row.reductions
  asked : ∀ rule token, (∃ reduction ∈ row.reductions, reduction.rule = rule ∧ token ∈ reduction.tokens) ↔
    g.augment.Asks items token (g.moveOf rule)
  leads : ∀ symbol next, row.edges.lookup symbol = some next →
    g.augment.Expects items symbol ∧ ∃ target, states.get? next = some target ∧
      g.augment.blueprint.itemSet target = g.augment.goto items symbol
  total : ∀ symbol, g.augment.Expects items symbol → ∃ next, row.edges.lookup symbol = some next

theorem Describes.extend {g : Numbered} {small large : StateList} {items : Set Item} {row : Row}
    (described : Describes g small items row) (larger : small.Extends large) : Describes g large items row where
  listed := described.listed
  distinct := described.distinct
  apart := described.apart
  asked := described.asked
  leads := by
    intro symbol next found
    obtain ⟨expects, target, known, same⟩ := described.leads symbol next found
    exact ⟨expects, target, larger known, same⟩
  total := described.total

private theorem of_lookup_zip {κ α : Type} [DecidableEq κ] {holds : κ × α → Nat → Prop} {entries : List (κ × α)}
    {numbers : List Nat} (related : List.Forall₂ holds entries numbers) {key : κ} {number : Nat}
    (found : ((entries.map Prod.fst).zip numbers).lookup key = some number) :
    ∃ value, (key, value) ∈ entries ∧ holds (key, value) number := by
  induction related with
  | nil => cases found
  | @cons entry first _ _ here _ ih =>
    obtain ⟨other, value⟩ := entry
    simp only [List.map_cons, List.zip_cons_cons, List.lookup_cons] at found
    split at found
    next same =>
      obtain rfl := eq_of_beq same
      obtain rfl := Option.some.inj found
      exact ⟨value, List.mem_cons_self .., here⟩
    next =>
      obtain ⟨value, member, later⟩ := ih found
      exact ⟨value, List.mem_cons_of_mem _ member, later⟩

private theorem lookup_zip_of_mem {κ α : Type} [DecidableEq κ] {holds : κ × α → Nat → Prop} {entries : List (κ × α)}
    {numbers : List Nat} (related : List.Forall₂ holds entries numbers) {key : κ} {value : α}
    (member : (key, value) ∈ entries) : ∃ number, ((entries.map Prod.fst).zip numbers).lookup key = some number := by
  induction related with
  | nil => cases member
  | @cons entry first _ _ _ _ ih =>
    obtain ⟨other, value⟩ := entry
    simp only [List.map_cons, List.zip_cons_cons, List.lookup_cons]
    split
    · exact ⟨first, rfl⟩
    next apart =>
      rcases List.mem_cons.mp member with same | later
      · obtain ⟨rfl, rfl⟩ := Prod.mk.inj same
        simp at apart
      · exact ih later

def Blueprint.targets (b : Blueprint) (codes : List Nat) : List IdSet :=
  (b.kernels codes).map fun entry => b.closure entry.2

namespace Survey

variable {g : Numbered} {s after : Survey} {state : IdSet}

theorem visit_eq_error {clash : Clash} (visited : s.visit g.augment.blueprint state = .error clash) :
    ∃ codes : List Nat, codes.Perm state.toList ∧ clash.state = s.rows.size ∧
      clash.items = codes.map (Item.ofCode g.augment.itemWidth) ∧
      reduceReduce? (codes.filterMap g.augment.blueprint.reduction?) =
        some (clash.token, clash.first, clash.second) := by
  obtain ⟨ranks, states, rows⟩ := s
  simp only [visit] at visited
  split at visited
  next token first second found =>
    obtain rfl := Except.error.inj visited
    exact ⟨_, sortBy_perm _ _, rfl, rfl, found⟩
  · cases visited

private theorem visit_eq_ok (visited : s.visit g.augment.blueprint state = .ok after) :
    ∃ codes : List Nat, codes.Perm state.toList ∧
      reduceReduce? (codes.filterMap g.augment.blueprint.reduction?) = none ∧
      after.states = (s.states.placeAll (g.augment.blueprint.targets codes)).2 ∧
      after.rows = s.rows.push ⟨codes.map (Item.ofCode g.augment.itemWidth),
        codes.filterMap g.augment.blueprint.reduction?,
        ((g.augment.blueprint.kernels codes).map Prod.fst).zip
          (s.states.placeAll (g.augment.blueprint.targets codes)).1⟩ := by
  obtain ⟨ranks, states, rows⟩ := s
  simp only [visit] at visited
  split at visited
  · cases visited
  next clean =>
    obtain rfl := Except.ok.inj visited
    refine ⟨ranks.sort state.toList, sortBy_perm _ _, clean, ?_, ?_⟩
    · simp only [List.map_map]
      rfl
    · simp only [List.map_map]
      rfl

/-- The kernels of a state are closed to what the state leads to. -/
theorem goto_of_mem_kernels {codes : List Nat} (lawful : g.Lawful) {symbol : Symbol Nat Nat} {kernel : List Nat}
    (member : (symbol, kernel) ∈ g.augment.blueprint.kernels codes) :
    g.augment.Expects (g.augment.blueprint.itemsOf codes) symbol ∧
      g.augment.blueprint.itemSet (g.augment.blueprint.closure kernel) =
        g.augment.goto (g.augment.blueprint.itemsOf codes) symbol := by
  obtain ⟨expects, rfl⟩ := lawful.mem_kernels.mp member
  rw [Blueprint.itemSet_closure lawful.augment_defined, lawful.itemsOf_membersOf expects.1]
  exact ⟨expects, rfl⟩

/-- A visit adds one row, which describes the state that was visited, and numbers only what this state leads to. -/
theorem visit_describes (lawful : g.Lawful) (visited : s.visit g.augment.blueprint state = .ok after) :
    s.states.Extends after.states ∧
    (∃ row, after.rows = s.rows.push row ∧ Describes g after.states (g.augment.blueprint.itemSet state) row) ∧
    ∀ {number set}, after.states.get? number = some set → s.states.get? number = some set ∨
      ∃ symbol, g.augment.Expects (g.augment.blueprint.itemSet state) symbol ∧
        g.augment.blueprint.itemSet set = g.augment.goto (g.augment.blueprint.itemSet state) symbol := by
  obtain ⟨codes, same, clean, states, rows⟩ := visit_eq_ok visited
  have items : g.augment.blueprint.itemsOf codes = g.augment.blueprint.itemSet state := Blueprint.itemsOf_perm same
  have apart := apart_of_reduceReduce?_eq_none clean
  have reached := fun {symbol kernel} member => @goto_of_mem_kernels g codes lawful symbol kernel member
  rw [items] at reached
  have placed := s.states.placeAll_numbers (g.augment.blueprint.targets codes)
  rw [← states] at placed
  have numbered := List.forall₂_map_left_iff.mp placed
  refine ⟨?_, ⟨_, rows, ?_⟩, ?_⟩
  · rw [states]
    exact s.states.placeAll_extends _
  · refine ⟨?_, ?_, apart, ?_, ?_, ?_⟩
    · intro item
      rw [← items, List.mem_map]
      exact Iff.rfl
    · refine List.Nodup.map ?_ (same.nodup_iff.mpr state.nodup_toList)
      exact fun _ _ equal => Item.ofCode_inj.mp equal
    · intro rule token
      rw [← items]
      exact lawful.mem_reductions
    · intro symbol next found
      obtain ⟨kernel, member, known⟩ := of_lookup_zip numbered found
      obtain ⟨expects, leads⟩ := reached member
      exact ⟨expects, _, known, leads⟩
    · intro symbol expects
      rw [← items] at expects
      exact lookup_zip_of_mem numbered (lawful.mem_kernels.mpr ⟨expects, rfl⟩)
  · intro number set found
    rw [states] at found
    rcases StateList.of_get?_placeAll found with old | new
    · exact Or.inl old
    · obtain ⟨⟨symbol, kernel⟩, member, rfl⟩ := List.mem_map.mp new
      exact Or.inr ⟨symbol, reached member⟩

/-- The second survey visits one state more. -/
def Next (b : Blueprint) (s t : Survey) : Prop :=
  ∃ state, s.states.get? s.rows.size = some state ∧ s.visit b state = .ok t

def Stage (b : Blueprint) : Survey → Prop := Relation.ReflTransGen (Next b) (initial b)

/-- What holds of a survey at every stage. -/
structure Sound (g : Numbered) (s : Survey) : Prop where
  first : ∃ set, s.states.get? 0 = some set ∧
    g.augment.blueprint.itemSet set = g.augment.closure { g.augment.startItem }
  canonical : ∀ {number set}, s.states.get? number = some set → g.augment.Canonical (g.augment.blueprint.itemSet set)
  within : s.rows.size ≤ s.states.size
  described : ∀ {number row}, s.rows[number]? = some row → ∃ set, s.states.get? number = some set ∧
    Describes g s.states (g.augment.blueprint.itemSet set) row

private theorem initial_sound (lawful : g.Lawful) : Sound g (initial g.augment.blueprint) := by
  have place : Item.ofCode g.augment.itemWidth (g.augment.blueprint.acceptRule * g.augment.itemWidth) =
      g.augment.startItem :=
    Item.ofCode_code ⟨g.augment.blueprint.acceptRule, 0⟩ Numbered.itemWidth_pos
  have kernel : g.augment.blueprint.itemsOf [g.augment.blueprint.acceptRule * g.augment.blueprint.width] =
      { g.augment.startItem } := by
    ext item
    rw [Set.mem_singleton_iff, ← place]
    simp only [Blueprint.itemsOf, List.mem_singleton, exists_eq_left, Set.mem_ofPred_eq]
    exact eq_comm
  have first : g.augment.blueprint.itemSet (g.augment.blueprint.closure
      [g.augment.blueprint.acceptRule * g.augment.blueprint.width]) = g.augment.closure { g.augment.startItem } := by
    rw [Blueprint.itemSet_closure lawful.augment_defined, kernel]
  refine ⟨⟨_, StateList.get?_place _ _, first⟩, ?_, Nat.zero_le _, ?_⟩
  · intro number set found
    rcases StateList.of_get?_place found with old | rfl
    · cases old
    · rw [first]
      exact .start
  · intro number row found
    cases found

private theorem Next.sound (lawful : g.Lawful) {t : Survey} (next : Next g.augment.blueprint s t) (sound : Sound g s) :
    Sound g t := by
  obtain ⟨state, waiting, visited⟩ := next
  obtain ⟨larger, ⟨row, rows, described⟩, origin⟩ := visit_describes lawful visited
  refine ⟨?_, ?_, ?_, ?_⟩
  · obtain ⟨set, found, same⟩ := sound.first
    exact ⟨set, larger found, same⟩
  · intro number set found
    rcases origin found with old | ⟨symbol, expects, same⟩
    · exact sound.canonical old
    · rw [same]
      exact .goto (sound.canonical waiting) expects
  · have more := larger.size_le
    have inside := StateList.isSome_get?.mp ⟨state, waiting⟩
    rw [rows, Array.size_push]
    omega
  · intro number other found
    rw [rows, Array.getElem?_push] at found
    split at found
    next last =>
      obtain rfl := Option.some.inj found
      exact ⟨state, last ▸ larger waiting, described⟩
    next =>
      obtain ⟨set, known, old⟩ := sound.described found
      exact ⟨set, larger known, old.extend larger⟩

theorem Stage.sound (lawful : g.Lawful) (stage : Stage g.augment.blueprint s) : Sound g s := by
  induction stage with
  | refl => exact initial_sound lawful
  | tail _ next ih => exact next.sound lawful ih

private theorem Sound.size_le (sound : Sound g s) : s.states.size ≤ 2 ^ g.augment.blueprint.codes := by
  refine StateList.size_le ?_
  intro number set found
  have ruled : 0 < g.augment.rules.size := by simp [Numbered.augment_rules]
  exact Blueprint.bits_lt (Numbered.Canonical.proper ruled (sound.canonical found))

theorem Next.extends (lawful : g.Lawful) {t : Survey} (next : Next g.augment.blueprint s t) :
    s.states.Extends t.states := by
  obtain ⟨state, _, visited⟩ := next
  exact (visit_describes lawful visited).1

theorem Stage.extends (lawful : g.Lawful) {t : Survey} (first : Stage g.augment.blueprint s)
    (second : Stage g.augment.blueprint t) : s.states.Extends t.states ∨ t.states.Extends s.states := by
  have grows : ∀ {s t}, Relation.ReflTransGen (Next g.augment.blueprint) s t → s.states.Extends t.states := by
    intro s t path
    induction path with
    | refl => exact fun found => found
    | tail _ next ih => exact fun found => next.extends lawful (ih found)
  have only : Relator.RightUnique (Next g.augment.blueprint) := by
    rintro s t u ⟨state, waiting, visited⟩ ⟨other, waiting', visited'⟩
    obtain rfl := Option.some.inj (waiting.symm.trans waiting')
    exact Except.ok.inj (visited.symm.trans visited')
  rcases Relation.ReflTransGen.total_of_right_unique only first second with path | path
  · exact Or.inl (grows path)
  · exact Or.inr (grows path)

/-- The rounds suffice, since every round fills a row and there are no more states than sets of codes. -/
theorem explore_eq_ok (lawful : g.Lawful) {t : Survey} {rounds : Nat} (stage : Stage g.augment.blueprint s)
    (enough : 2 ^ g.augment.blueprint.codes ≤ rounds + s.rows.size)
    (ended : explore g.augment.blueprint rounds s = .ok t) :
    Stage g.augment.blueprint t ∧ t.states.size ≤ t.rows.size := by
  induction rounds generalizing s with
  | zero =>
    obtain rfl := Except.ok.inj ended
    have few := (stage.sound lawful).size_le
    exact ⟨stage, by omega⟩
  | succ rounds ih =>
    rw [explore] at ended
    split at ended
    next last =>
      obtain rfl := Except.ok.inj ended
      refine ⟨stage, Nat.le_of_not_lt fun more => ?_⟩
      obtain ⟨set, found⟩ := StateList.isSome_get?.mpr more
      simp [found] at last
    next state waiting =>
      split at ended
      · cases ended
      next after visited =>
        obtain ⟨_, ⟨row, rows, _⟩, _⟩ := visit_describes lawful visited
        refine ih (stage.tail ⟨state, waiting, visited⟩) ?_ ended
        rw [rows, Array.size_push]
        omega

theorem explore_eq_error {clash : Clash} {rounds : Nat} (stage : Stage g.augment.blueprint s)
    (ended : explore g.augment.blueprint rounds s = .error clash) :
    ∃ t state, Stage g.augment.blueprint t ∧ t.states.get? t.rows.size = some state ∧
      t.visit g.augment.blueprint state = .error clash := by
  induction rounds generalizing s with
  | zero => cases ended
  | succ rounds ih =>
    rw [explore] at ended
    split at ended
    · cases ended
    next state waiting =>
      split at ended
      next visited =>
        obtain rfl := Except.error.inj ended
        exact ⟨s, state, stage, waiting, visited⟩
      next after visited => exact ih (stage.tail ⟨state, waiting, visited⟩) ended

/-- When every state has its row, nothing that the rows lead to is new. -/
theorem Sound.number_of_canonical (sound : Sound g s) (complete : s.states.size ≤ s.rows.size) {items : Set Item}
    (canonical : g.augment.Canonical items) :
    ∃ number set, s.states.get? number = some set ∧ g.augment.blueprint.itemSet set = items := by
  induction canonical with
  | start =>
    obtain ⟨set, found, same⟩ := sound.first
    exact ⟨0, set, found, same⟩
  | goto _ expects ih =>
    obtain ⟨number, set, found, rfl⟩ := ih
    have inside : number < s.rows.size := Nat.lt_of_lt_of_le (StateList.isSome_get?.mp ⟨set, found⟩) complete
    obtain ⟨other, known, described⟩ := sound.described (Array.getElem?_eq_getElem inside)
    obtain rfl := Option.some.inj (found.symm.trans known)
    obtain ⟨next, leads⟩ := described.total _ expects
    obtain ⟨_, target, reached, same⟩ := described.leads _ _ leads
    exact ⟨next, target, reached, same⟩

end Survey

/-- The number that the search gives to an item set. -/
def Numbered.StateAt (g : Numbered) (number : Nat) (items : Set Item) : Prop :=
  ∃ s set, Survey.Stage g.augment.blueprint s ∧ s.states.get? number = some set ∧
    g.augment.blueprint.itemSet set = items

namespace Numbered.StateAt

variable {g : Numbered} {number : Nat} {items more : Set Item}

theorem canonical (lawful : g.Lawful) (state : g.StateAt number items) : g.augment.Canonical items := by
  obtain ⟨s, set, stage, found, rfl⟩ := state
  exact (stage.sound lawful).canonical found

theorem items_unique (lawful : g.Lawful) (first : g.StateAt number items) (second : g.StateAt number more) :
    items = more := by
  obtain ⟨s, set, early, found, rfl⟩ := first
  obtain ⟨t, rest, late, known, rfl⟩ := second
  rcases early.extends lawful late with larger | larger
  · rw [Option.some.inj ((larger found).symm.trans known)]
  · rw [Option.some.inj (found.symm.trans (larger known))]

end Numbered.StateAt

end CommandLang
