import CommandLang.Automaton.Lookahead
import Mathlib.Data.List.ProdSigma
import Mathlib.Logic.Relation
import Mathlib.Tactic.ByContra

/-! Bounded rounds are enough. A step that only adds what is on a finite list stops changing its set
before the list is used up, so passes over rules come to an end, and following successors finds all. -/

namespace CommandLang

theorem countP_lt_countP {α : Type} {items : List α} {p q : α → Bool} (weaker : ∀ a ∈ items, p a → q a)
    {a : α} (member : a ∈ items) (fails : p a = false) (passes : q a = true) :
    items.countP p < items.countP q := by
  obtain ⟨front, back, rfl⟩ := List.append_of_mem member
  have first : front.countP p ≤ front.countP q :=
    List.countP_mono_left fun b inside => weaker b (List.mem_append.mpr (Or.inl inside))
  have last : back.countP p ≤ back.countP q :=
    List.countP_mono_left fun b inside => weaker b (List.mem_append.mpr (Or.inr (List.mem_cons_of_mem a inside)))
  simp only [List.countP_append, List.countP_cons, fails, passes, if_true, Bool.false_eq_true, if_false]
  omega

/-- A loop over `step` that stops when a round changes nothing comes to an end. -/
inductive Settles {α : Type} (step : α → α) : α → α → Prop where
  | done {value : α} (fixed : step value = value) : Settles step value value
  | again {value last : α} (changes : step value ≠ value) (later : Settles step (step value) last) : Settles step value last

section Loops

variable {α β : Type} {holds : β → Prop} {measure : β → Nat} {limit : Nat}

/-- A measure that every effective step increases bounds the rounds. -/
theorem settles_saturate [DecidableEq β] {step : β → β} (bounded : ∀ value, holds value → measure value ≤ limit)
    (keeps : ∀ value, holds value → holds (step value))
    (grows : ∀ value, holds value → step value ≠ value → measure value < measure (step value))
    (rounds : Nat) {value : β} (start : holds value) (enough : limit ≤ measure value + rounds) :
    Settles step value (saturate step rounds value) ∧ holds (saturate step rounds value) := by
  induction rounds generalizing value with
  | zero =>
    refine ⟨.done ?_, start⟩
    by_contra changes
    have more := grows value start changes
    have most := bounded _ (keeps value start)
    omega
  | succ rounds ih =>
    rw [saturate]
    split
    next fixed => exact ⟨.done fixed, start⟩
    next changes =>
      have more := grows value start changes
      obtain ⟨later, last⟩ := ih (keeps value start) (by omega)
      exact ⟨.again changes later, last⟩

theorem Settles.fixed {step : β → β} {value last : β} (settles : Settles step value last) : step last = last := by
  induction settles with
  | done fixed => exact fixed
  | again _ _ ih => exact ih

variable {visit : β → α → β} {items : List α}

theorem foldl_grows (keeps : ∀ value, holds value → ∀ item ∈ items, holds (visit value item))
    (grows : ∀ value, holds value → ∀ item ∈ items, visit value item ≠ value → measure value < measure (visit value item))
    {value : β} (start : holds value) :
    holds (items.foldl visit value) ∧ ((items.foldl visit value = value ∧ ∀ item ∈ items, visit value item = value) ∨
      measure value < measure (items.foldl visit value)) := by
  induction items generalizing value with
  | nil => exact ⟨start, Or.inl ⟨rfl, by simp⟩⟩
  | cons first rest ih =>
    have here := keeps value start first (List.mem_cons_self ..)
    obtain ⟨last, outcome⟩ := ih (fun value holds item inside => keeps value holds item (List.mem_cons_of_mem _ inside))
      (fun value holds item inside => grows value holds item (List.mem_cons_of_mem _ inside)) here
    refine ⟨last, ?_⟩
    by_cases same : visit value first = value
    · rw [List.foldl_cons]
      rw [same] at outcome ⊢
      exact outcome.imp_left fun ⟨whole, later⟩ => ⟨whole, List.forall_mem_cons.mpr ⟨same, later⟩⟩
    · have more := grows value start first (List.mem_cons_self ..) same
      rw [List.foldl_cons]
      rcases outcome with ⟨whole, _⟩ | still
      · rw [whole]
        exact Or.inr more
      · exact Or.inr (Nat.lt_trans more still)

/-- Passes over items come to an end, and then there is nothing that a visit would change. -/
theorem settles_passes [DecidableEq β] (bounded : ∀ value, holds value → measure value ≤ limit)
    (keeps : ∀ value, holds value → ∀ item ∈ items, holds (visit value item))
    (grows : ∀ value, holds value → ∀ item ∈ items, visit value item ≠ value → measure value < measure (visit value item))
    {rounds : Nat} {value : β} (start : holds value) (enough : limit ≤ measure value + rounds) :
    Settles (items.foldl visit) value (saturate (items.foldl visit) rounds value) ∧
      holds (saturate (items.foldl visit) rounds value) ∧
      ∀ item ∈ items, visit (saturate (items.foldl visit) rounds value) item = saturate (items.foldl visit) rounds value := by
  obtain ⟨settles, last⟩ := settles_saturate bounded (fun value holds => (foldl_grows keeps grows holds).1)
    (fun value holds changes => (foldl_grows keeps grows holds).2.resolve_left fun same => changes same.1) rounds start enough
  refine ⟨settles, last, ?_⟩
  rcases (foldl_grows keeps grows last).2 with ⟨_, idle⟩ | more
  · exact idle
  · rw [settles.fixed] at more
    exact absurd more (Nat.lt_irrefl _)

end Loops

namespace IdSet

theorem eq_empty_iff {s : IdSet} : s = ∅ ↔ ∀ i, i ∉ s := by
  constructor
  · rintro rfl i
    exact not_mem_empty i
  · intro absent
    ext i
    simp [absent i]

@[simp] theorem getElem?_table (count : Nat) (f : Nat → IdSet) (i : Nat) :
    (table count f)[i]? = if i < count then some (f i) else none := by
  by_cases inside : i < count
  · simp [table, inside]
  · simp [table, inside]

theorem getD_table {count : Nat} {f : Nat → IdSet} (within : ∀ i j, j ∈ f i → i < count) (i : Nat) :
    ((table count f)[i]?).getD ∅ = f i := by
  rw [getElem?_table]
  split
  · rfl
  next outside =>
    refine (eq_empty_iff.mpr fun j member => ?_).symm
    exact outside (within i j member)

@[simp] theorem getD_replicate (places a : Nat) : ((Array.replicate places (∅ : IdSet))[a]?).getD ∅ = ∅ := by
  rw [Array.getElem?_replicate]
  split <;> rfl

theorem mem_extend {sets : Array IdSet} {place a i : Nat} {more : IdSet} :
    i ∈ ((extend sets place more)[a]?).getD ∅ ↔ i ∈ (sets[a]?).getD ∅ ∨ (place = a ∧ a < sets.size ∧ i ∈ more) := by
  rw [extend, Array.getElem?_modify]
  split
  next same =>
    subst same
    by_cases inside : place < sets.size
    · simp [inside]
    · simp [inside]
  next other => simp [other]

/-- As many sets as there are places, with members from a list. -/
structure Fits (places : Nat) (members : List Nat) (sets : Array IdSet) : Prop where
  size : sets.size = places
  listed : ∀ a : Nat, ∀ i ∈ (sets[a]?).getD ∅, i ∈ members

section Fits

variable {places : Nat} {members : List Nat} {sets more : Array IdSet}

def fill (places : Nat) (members : List Nat) (sets : Array IdSet) : Nat :=
  (List.range places ×ˢ members).countP fun (a, i) => i ∈ (sets[a]?).getD ∅

theorem fill_le : fill places members sets ≤ places * members.length := by
  have all : (List.range places ×ˢ members).length = places * members.length := by
    rw [List.length_product, List.length_range]
  exact all ▸ List.countP_le_length

theorem Fits.replicate : Fits places members (Array.replicate places ∅) where
  size := Array.size_replicate
  listed := by simp

theorem Fits.extend (fits : Fits places members sets) {place : Nat} {new : IdSet} (listed : ∀ i ∈ new, i ∈ members) :
    Fits places members (extend sets place new) where
  size := by simpa [IdSet.extend] using fits.size
  listed := by
    intro a i inside
    rcases mem_extend.mp inside with old | ⟨_, _, added⟩
    · exact fits.listed a i old
    · exact listed i added

theorem Fits.fill_lt (fits : Fits places members sets) (fits' : Fits places members more)
    (keeps : ∀ a : Nat, ∀ i ∈ (sets[a]?).getD ∅, i ∈ (more[a]?).getD ∅) (changes : more ≠ sets) :
    fill places members sets < fill places members more := by
  have new : ∃ a < places, ∃ i ∈ (more[a]?).getD ∅, i ∉ (sets[a]?).getD ∅ := by
    by_contra none
    push Not at none
    apply changes
    refine Array.ext (fits'.size.trans fits.size.symm) fun a inside inside' => ?_
    ext i
    have after : i ∈ (more[a]?).getD ∅ ↔ i ∈ more[a] := by simp [inside]
    have before : i ∈ (sets[a]?).getD ∅ ↔ i ∈ sets[a] := by simp [inside']
    rw [← after, ← before]
    exact ⟨none a (fits'.size ▸ inside) i, keeps a i⟩
  obtain ⟨a, inside, i, added, absent⟩ := new
  refine countP_lt_countP ?_ (List.mem_product.mpr ⟨List.mem_range.mpr inside, fits'.listed a i added⟩)
    (by simpa using absent) (by simpa using added)
  rintro ⟨b, j⟩ _ old
  simp only [decide_eq_true_eq] at old ⊢
  exact keeps b j old

end Fits

variable {successors : Nat → IdSet} {targets : List Nat}

private theorem mem_unions_successors {frontier : IdSet} {b : Nat} :
    b ∈ unions (frontier.toList.map successors) ↔ ∃ a ∈ frontier, b ∈ successors a := by
  simp only [mem_unions, List.mem_map, mem_toList]
  constructor
  · rintro ⟨_, ⟨a, recent, rfl⟩, leads⟩
    exact ⟨a, recent, leads⟩
  · rintro ⟨a, recent, leads⟩
    exact ⟨_, ⟨a, recent, rfl⟩, leads⟩

private theorem spread_sound (holds : Nat → Prop) (next : ∀ a, holds a → ∀ b ∈ successors a, holds b)
    (rounds : Nat) {seen frontier : IdSet} (found : ∀ a ∈ seen, holds a) (inside : ∀ a ∈ frontier, a ∈ seen) :
    ∀ a ∈ spread successors rounds seen frontier, holds a := by
  induction rounds generalizing seen frontier with
  | zero => exact found
  | succ rounds ih =>
    rw [spread]
    split
    · exact found
    · apply ih
      · intro a member
        rcases mem_union.mp member with old | new
        · exact found a old
        · obtain ⟨source, present, leads⟩ := mem_unions_successors.mp (mem_diff.mp new).1
          exact next source (found source (inside source present)) a leads
      · intro a member
        exact mem_union.mpr (Or.inr member)

private theorem mem_newlySeen {seen frontier : IdSet} {b : Nat} : b ∈ (unions (frontier.toList.map successors)).diff seen ↔
    (∃ a ∈ frontier, b ∈ successors a) ∧ b ∉ seen := by
  rw [mem_diff, mem_unions_successors]

/-- A round that sees anything new leaves fewer targets to be seen. -/
private theorem unseen_lt (known : ∀ a, ∀ b ∈ successors a, b ∈ targets) {seen frontier : IdSet} {b : Nat}
    (new : b ∈ (unions (frontier.toList.map successors)).diff seen) :
    targets.countP (· ∉ seen ∪ (unions (frontier.toList.map successors)).diff seen) < targets.countP (· ∉ seen) := by
  obtain ⟨⟨a, recent, leads⟩, missing⟩ := mem_newlySeen.mp new
  refine countP_lt_countP ?_ (known a b leads) ?_ ?_
  · intro c _ unseen
    simp only [decide_eq_true_eq] at unseen ⊢
    exact fun present => unseen (mem_union.mpr (Or.inl present))
  · simpa using Or.inr new
  · simpa using missing

private theorem closed_union {seen frontier : IdSet} (closed : ∀ a ∈ seen, a ∉ frontier → ∀ b ∈ successors a, b ∈ seen) :
    ∀ a ∈ seen ∪ (unions (frontier.toList.map successors)).diff seen,
      a ∉ (unions (frontier.toList.map successors)).diff seen → ∀ b ∈ successors a,
        b ∈ seen ∪ (unions (frontier.toList.map successors)).diff seen := by
  intro a member old b leads
  rcases mem_union.mp member with present | new
  · by_cases recent : a ∈ frontier
    · by_cases missing : b ∈ seen
      · exact mem_union.mpr (Or.inl missing)
      · exact mem_union.mpr (Or.inr (mem_newlySeen.mpr ⟨⟨a, recent, leads⟩, missing⟩))
    · exact mem_union.mpr (Or.inl (closed a present recent b leads))
  · exact absurd new old

/-- Rounds are left over as long as there are targets that were not seen, and each round sees one. -/
private theorem spread_closed (known : ∀ a, ∀ b ∈ successors a, b ∈ targets)
    (rounds : Nat) (seen frontier : IdSet) (enough : targets.countP (· ∉ seen) < rounds)
    (inside : ∀ a ∈ frontier, a ∈ seen)
    (closed : ∀ a ∈ seen, a ∉ frontier → ∀ b ∈ successors a, b ∈ seen) :
    (∀ a ∈ seen, a ∈ spread successors rounds seen frontier) ∧
    ∀ a ∈ spread successors rounds seen frontier, ∀ b ∈ successors a,
      b ∈ spread successors rounds seen frontier := by
  induction rounds generalizing seen frontier with
  | zero => omega
  | succ rounds ih =>
    rw [spread]
    split
    next none =>
      have nothing := eq_empty_iff.mp none
      refine ⟨fun _ member => member, ?_⟩
      intro a member b leads
      by_cases recent : a ∈ frontier
      · by_contra missing
        exact nothing b (mem_newlySeen.mpr ⟨⟨a, recent, leads⟩, missing⟩)
      · exact closed a member recent b leads
    next some =>
      obtain ⟨b, new⟩ := not_forall_not.mp (fun nothing => some (eq_empty_iff.mpr nothing))
      obtain ⟨keeps, steps⟩ := ih _ _ (Nat.lt_of_lt_of_le (unseen_lt known new) (Nat.le_of_lt_succ enough))
        (fun a member => mem_union.mpr (Or.inr member)) (closed_union closed)
      exact ⟨fun a member => keeps a (mem_union.mpr (Or.inl member)), steps⟩

/-- Following successors finds exactly what paths lead to, if there are more rounds than targets. -/
theorem mem_reachable (targets : List Nat) (known : ∀ a, ∀ b ∈ successors a, b ∈ targets) {rounds : Nat}
    (enough : targets.length < rounds) {start b : Nat} :
    b ∈ reachable successors rounds start ↔ Relation.ReflTransGen (fun a b => b ∈ successors a) start b := by
  have only : ∀ a, a ∈ ofList [start] ↔ a = start := by simp
  constructor
  · intro member
    refine spread_sound (Relation.ReflTransGen (fun a b => b ∈ successors a) start) ?_ rounds ?_ ?_ b member
    · intro a path b leads
      exact path.tail leads
    · intro a first
      obtain rfl := (only a).mp first
      exact .refl
    · exact fun _ member => member
  · intro path
    have few : targets.countP (· ∉ ofList [start]) < rounds := Nat.lt_of_le_of_lt List.countP_le_length enough
    obtain ⟨keeps, steps⟩ := spread_closed known rounds _ (ofList [start]) few
      (fun _ member => member) (fun a member old => absurd member old)
    induction path with
    | refl => exact keeps start ((only start).mpr rfl)
    | tail _ leads ih => exact steps _ ih _ leads

end IdSet

end CommandLang
