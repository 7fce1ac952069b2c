/-! Stable sorting by insertion. The order is given as a test whether one element has to stand
before another; elements that it does not separate keep their places. -/

namespace CommandLang

variable {α : Type}

def insertSorted (before : α → α → Bool) (a : α) : List α → List α
  | [] => [a]
  | b :: rest => if before b a then b :: insertSorted before a rest else a :: b :: rest

def sortBy (before : α → α → Bool) : List α → List α
  | [] => []
  | a :: rest => insertSorted before a (sortBy before rest)

theorem insertSorted_perm (before : α → α → Bool) (a : α) (sorted : List α) :
    (insertSorted before a sorted).Perm (a :: sorted) := by
  induction sorted with
  | nil => simp [insertSorted]
  | cons b rest ih =>
    by_cases first : before b a
    · simpa [insertSorted, first] using (ih.cons b).trans (List.Perm.swap a b rest)
    · simp [insertSorted, first]

theorem sortBy_perm (before : α → α → Bool) (list : List α) : (sortBy before list).Perm list := by
  induction list with
  | nil => exact .nil
  | cons a rest ih => exact (insertSorted_perm before a _).trans (ih.cons a)

@[simp] theorem mem_sortBy {before : α → α → Bool} {a : α} {list : List α} :
    a ∈ sortBy before list ↔ a ∈ list :=
  (sortBy_perm before list).mem_iff

example : sortBy (fun a b : Nat × Nat => a.1 < b.1) [(2, 0), (1, 1), (2, 2), (1, 3)] =
    [(1, 1), (1, 3), (2, 0), (2, 2)] := by decide

end CommandLang
