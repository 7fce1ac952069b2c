import CommandLang.Automaton.Row
import Mathlib.Data.List.Basic

/-! What a row answers. Looking for a token with two reductions, or with a shift beside a reduction,
finds one where there is one; a row without such a token has one answer for each token. -/

namespace CommandLang

namespace IdSet

theorem mem_of_least? {s : IdSet} {i : Nat} (found : s.least? = some i) : i ∈ s :=
  mem_toList.mp (List.mem_of_head? found)

theorem not_mem_of_least?_eq_none {s : IdSet} (none : s.least? = none) (i : Nat) : i ∉ s := by
  intro member
  have empty : s.toList = [] := List.head?_eq_none_iff.mp none
  have inside := mem_toList.mpr member
  simp [empty] at inside

end IdSet

def Apart (reductions : List Reduction) : Prop :=
  reductions.Pairwise fun early late => ∀ token ∈ early.tokens, token ∉ late.tokens

private theorem exists_of_repeated {seen : IdSet} {reductions : List Reduction} {token rule : Nat}
    (found : repeated seen reductions = some (token, rule)) :
    ∃ front late back, reductions = front ++ late :: back ∧ late.rule = rule ∧ token ∈ late.tokens ∧
      (token ∈ seen ∨ ∃ early ∈ front, token ∈ early.tokens) := by
  induction reductions generalizing seen with
  | nil => cases found
  | cons reduction rest ih =>
    rw [repeated] at found
    split at found
    next least =>
      simp only [Option.some.injEq, Prod.mk.injEq] at found
      obtain ⟨rfl, rfl⟩ := found
      obtain ⟨here, before⟩ := IdSet.mem_inter.mp (IdSet.mem_of_least? least)
      exact ⟨[], reduction, rest, rfl, rfl, here, Or.inl before⟩
    next =>
      obtain ⟨front, late, back, rfl, same, here, before⟩ := ih found
      refine ⟨reduction :: front, late, back, rfl, same, here, ?_⟩
      rcases before with old | ⟨early, member, inside⟩
      · rcases IdSet.mem_union.mp old with old | new
        · exact Or.inl old
        · exact Or.inr ⟨reduction, List.mem_cons_self .., new⟩
      · exact Or.inr ⟨early, List.mem_cons_of_mem _ member, inside⟩

private theorem apart_of_repeated_eq_none {seen : IdSet} {reductions : List Reduction}
    (none : repeated seen reductions = none) :
    Apart reductions ∧ ∀ reduction ∈ reductions, ∀ token ∈ reduction.tokens, token ∉ seen := by
  induction reductions generalizing seen with
  | nil => exact ⟨.nil, by simp⟩
  | cons reduction rest ih =>
    rw [repeated] at none
    split at none
    · cases none
    next least =>
      obtain ⟨apart, fresh⟩ := ih none
      refine ⟨List.pairwise_cons.mpr ⟨?_, apart⟩, ?_⟩
      · intro late member token early inside
        exact fresh late member token inside (IdSet.mem_union.mpr (Or.inr early))
      · intro other member token inside old
        rcases List.mem_cons.mp member with rfl | later
        · exact IdSet.not_mem_of_least?_eq_none least token (IdSet.mem_inter.mpr ⟨inside, old⟩)
        · exact fresh other later token inside (IdSet.mem_union.mpr (Or.inl old))

theorem exists_of_reduceReduce? {reductions : List Reduction} {token first second : Nat}
    (found : reduceReduce? reductions = some (token, first, second)) :
    ∃ front early middle late back, reductions = front ++ early :: (middle ++ late :: back) ∧
      token ∈ early.tokens ∧ token ∈ late.tokens ∧ early.rule = first ∧ late.rule = second := by
  simp only [reduceReduce?, Option.bind_eq_some_iff, Option.map_eq_some_iff, Prod.exists, Prod.mk.injEq] at found
  obtain ⟨token, second, again, first, once, rfl, rfl, rfl⟩ := found
  obtain ⟨front, late, back, rfl, rfl, inside, before⟩ := exists_of_repeated again
  have earlier : ∃ early ∈ front, token ∈ early.tokens := by
    rcases before with old | earlier
    · exact absurd old (IdSet.not_mem_empty token)
    · exact earlier
  obtain ⟨some, member, holds⟩ := earlier
  obtain ⟨early, here⟩ := Option.isSome_iff_exists.mp
    (List.find?_isSome.mpr ⟨some, member, by simpa using holds⟩ : (front.find? (token ∈ ·.tokens)).isSome)
  rw [reducedOn, List.find?_append, here, Option.some_or, Option.map_some, Option.some.injEq] at once
  obtain ⟨left, middle, rfl⟩ := List.append_of_mem (List.mem_of_find?_eq_some here)
  refine ⟨left, early, middle, late, back, by simp, ?_, inside, once, rfl⟩
  simpa using List.find?_some here

theorem apart_of_reduceReduce?_eq_none {reductions : List Reduction} (clean : reduceReduce? reductions = none) :
    Apart reductions := by
  cases again : repeated ∅ reductions with
  | none => exact (apart_of_repeated_eq_none again).1
  | some found =>
    obtain ⟨token, second⟩ := found
    obtain ⟨front, late, back, rfl, _, inside, _⟩ := exists_of_repeated again
    simp only [reduceReduce?, again, reducedOn, Option.bind_some, Option.map_eq_none_iff, List.find?_eq_none] at clean
    exact absurd inside (by simpa using clean late (by simp))

theorem reducedOn_eq_some_iff {reductions : List Reduction} (apart : Apart reductions) {token rule : Nat} :
    reducedOn token reductions = some rule ↔ ∃ reduction ∈ reductions, reduction.rule = rule ∧ token ∈ reduction.tokens := by
  rw [reducedOn, Option.map_eq_some_iff]
  constructor
  · rintro ⟨reduction, here, rfl⟩
    exact ⟨reduction, List.mem_of_find?_eq_some here, rfl, by simpa using List.find?_some here⟩
  · rintro ⟨reduction, member, rfl, inside⟩
    refine ⟨reduction, ?_, rfl⟩
    obtain ⟨front, back, rfl⟩ := List.append_of_mem member
    have before : ∀ early ∈ front, token ∉ early.tokens := by
      intro early here holds
      exact (List.pairwise_append.mp apart).2.2 early here reduction (by simp) token holds inside
    rw [List.find?_append, List.find?_eq_none.mpr (by simpa using before)]
    simp [inside]

namespace Row

variable {row : Row}

theorem mem_shifted {token : Nat} : token ∈ row.shifted ↔ ∃ next, row.shift? token = some next := by
  simp only [shifted, IdSet.mem_ofList, List.mem_filterMap, Prod.exists, shift?]
  constructor
  · rintro ⟨symbol, next, member, found⟩
    cases symbol with
    | nonterminal a => cases found
    | terminal other =>
      obtain rfl := Option.some.inj found
      exact Option.isSome_iff_exists.mp (List.lookup_isSome_iff.mpr ⟨_, member, by simp⟩)
  · rintro ⟨next, found⟩
    obtain ⟨front, back, whole, _⟩ := List.lookup_eq_some_iff.mp found
    exact ⟨.terminal token, next, by simp [whole], rfl⟩

theorem exists_of_shiftReduce? {token rule : Nat} (found : row.shiftReduce? = some (token, rule)) :
    (∃ next, row.shift? token = some next) ∧ ∃ reduction ∈ row.reductions, reduction.rule = rule ∧ token ∈ reduction.tokens := by
  obtain ⟨reduction, member, least⟩ := List.exists_of_findSome?_eq_some found
  simp only [Option.map_eq_some_iff, Prod.mk.injEq] at least
  obtain ⟨token, least, rfl, rfl⟩ := least
  obtain ⟨inside, before⟩ := IdSet.mem_inter.mp (IdSet.mem_of_least? least)
  exact ⟨mem_shifted.mp before, reduction, member, rfl, inside⟩

theorem shift?_eq_none_of_shiftReduce?_eq_none (clean : row.shiftReduce? = none) {reduction : Reduction}
    (member : reduction ∈ row.reductions) {token : Nat} (inside : token ∈ reduction.tokens) :
    row.shift? token = none := by
  by_contra shifts
  have shifted := mem_shifted.mpr (Option.ne_none_iff_exists'.mp shifts)
  have least := Option.map_eq_none_iff.mp (List.findSome?_eq_none_iff.mp clean reduction member)
  exact IdSet.not_mem_of_least?_eq_none least token (IdSet.mem_inter.mpr ⟨inside, shifted⟩)

theorem hasAction_iff :
    row.hasAction = true ↔ (∃ token next, row.shift? token = some next) ∨
      ∃ reduction ∈ row.reductions, ∃ token, token ∈ reduction.tokens := by
  have filled : ∀ s : IdSet, s ≠ ∅ ↔ ∃ token, token ∈ s := by
    intro s
    constructor
    · intro apart
      by_contra none
      exact apart (IdSet.ext fun i => ⟨fun member => absurd ⟨i, member⟩ none, fun member => absurd member (IdSet.not_mem_empty i)⟩)
    · rintro ⟨token, member⟩ rfl
      exact IdSet.not_mem_empty token member
  simp only [hasAction, Bool.or_eq_true, decide_eq_true_eq, List.any_eq_true, filled, mem_shifted]

end Row

end CommandLang
