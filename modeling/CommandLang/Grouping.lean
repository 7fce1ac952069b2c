import Std.Data.TreeMap.Lemmas

/-! Grouping pairs by their first parts. Groups come in the order in which their keys first come, and
each lists its members in their order. Keys are looked up by number, so grouping takes little more
than one pass. -/

namespace CommandLang

variable {κ α : Type}

/-- The members under the number of each key. -/
def buckets (number : κ → Nat) (pairs : List (κ × α)) : Std.TreeMap Nat (List α) :=
  pairs.foldr (fun pair found =>
    found.insert (number pair.1) (pair.2 :: found.getD (number pair.1) [])) ∅

def takeBuckets (number : κ → Nat) : List (κ × α) → Std.TreeMap Nat (List α) → List (κ × List α)
  | [], _ => []
  | (key, _) :: rest, found =>
    match found[number key]? with
    | none => takeBuckets number rest found
    | some members => (key, members) :: takeBuckets number rest (found.erase (number key))

/-- The groups of some pairs. Different keys have different numbers. -/
def group (number : κ → Nat) (pairs : List (κ × α)) : List (κ × List α) :=
  takeBuckets number pairs (buckets number pairs)

def membersOf [DecidableEq κ] (key : κ) (pairs : List (κ × α)) : List α :=
  (pairs.filter (·.1 = key)).map Prod.snd

section

variable [DecidableEq κ] {number : κ → Nat} (distinct : ∀ a b, number a = number b → a = b)

include distinct

private theorem getElem?_buckets (pairs : List (κ × α)) (key : κ) :
    (buckets number pairs)[number key]? =
      if key ∈ pairs.map Prod.fst then some (membersOf key pairs) else none := by
  induction pairs with
  | nil => simp [buckets]
  | cons pair rest ih =>
    obtain ⟨other, a⟩ := pair
    have step : buckets number ((other, a) :: rest) =
        (buckets number rest).insert (number other) (a :: (buckets number rest).getD (number other) []) := rfl
    rw [step, Std.TreeMap.getElem?_insert]
    by_cases same : other = key
    · subst same
      rw [if_pos (by simp), Std.TreeMap.getD_eq_getD_getElem?, ih]
      by_cases again : other ∈ rest.map Prod.fst
      · simp [again, membersOf]
      · have none : rest.filter (·.1 = other) = [] := by
          simp only [List.filter_eq_nil_iff, decide_eq_true_eq]
          rintro found inside rfl
          exact again (List.mem_map_of_mem inside)
        simp [again, membersOf, none]
    · have apart : ¬ key = other := fun equal => same equal.symm
      have numbers : ¬ number other = number key := fun equal => same (distinct _ _ equal)
      rw [if_neg (by simpa using numbers), ih]
      simp only [membersOf, List.filter_cons, same, decide_false, Bool.false_eq_true, if_false,
        List.map_cons, List.mem_cons, apart, false_or]

private theorem takeBuckets_eq (all pairs : List (κ × α)) (taken : κ → Bool)
    (found : Std.TreeMap Nat (List α))
    (left : ∀ key ∈ pairs.map Prod.fst,
      found[number key]? = if taken key then none else some (membersOf key all)) :
    takeBuckets number pairs found =
      ((pairs.map Prod.fst).filter (!taken ·)).eraseDups.map fun key => (key, membersOf key all) := by
  induction pairs generalizing taken found with
  | nil => rfl
  | cons pair rest ih =>
    obtain ⟨key, a⟩ := pair
    have here := left key (by simp)
    rw [takeBuckets]
    by_cases gone : taken key
    · rw [here, if_pos gone]
      simp only [List.map_cons, List.filter_cons, gone]
      simpa using ih taken found fun other inside => left other (by simp_all)
    · rw [here, if_neg gone]
      simp only [List.map_cons, List.filter_cons, gone, Bool.not_false, if_true,
        List.eraseDups_cons, List.filter_filter]
      congr 1
      rw [ih (fun other => taken other || other == key)]
      · congr 3
        funext other
        simp [Bool.and_comm]
      · intro other inside
        rw [Std.TreeMap.getElem?_erase, left other (by simp_all)]
        by_cases same : other = key
        · simp [same]
        · have numbers : ¬ number key = number other := fun equal => same (distinct _ _ equal).symm
          simp [same, numbers]

theorem group_eq (pairs : List (κ × α)) :
    group number pairs = (pairs.map Prod.fst).eraseDups.map fun key => (key, membersOf key pairs) := by
  rw [group, takeBuckets_eq distinct pairs pairs (fun _ => false)]
  · rw [List.filter_eq_self.2 (by simp)]
  · intro key inside
    rw [getElem?_buckets distinct, if_pos inside]
    simp

end

example : group id [(2, 'a'), (1, 'b'), (2, 'c')] = [(2, ['a', 'c']), (1, ['b'])] := by
  decide +kernel

end CommandLang
