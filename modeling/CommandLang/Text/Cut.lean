/-! Cutting a text in two at a separator, which belongs to neither part. -/

namespace CommandLang.Text

variable {α : Type} [DecidableEq α]

def cutFirst (mark : α) : List α → Option (List α × List α)
  | [] => none
  | a :: rest =>
    if a = mark then some ([], rest)
    else (cutFirst mark rest).map fun (before, after) => (a :: before, after)

def cutLast (mark : α) (text : List α) : Option (List α × List α) :=
  (cutFirst mark text.reverse).map fun (after, before) => (before.reverse, after.reverse)

def stripLast (mark : α) (text : List α) : Option (List α) :=
  if text.getLast? = some mark then some text.dropLast else none

theorem eq_of_stripLast {mark : α} {text front : List α} (strip : stripLast mark text = some front) :
    text = front ++ [mark] := by
  unfold stripLast at strip
  split at strip
  · next last =>
    obtain ⟨before, rfl⟩ := List.getLast?_eq_some_iff.1 last
    simp_all
  · contradiction

theorem eq_of_cutFirst {mark : α} {text before after : List α}
    (cut : cutFirst mark text = some (before, after)) : text = before ++ mark :: after := by
  induction text generalizing before with
  | nil => simp [cutFirst] at cut
  | cons a rest ih =>
    by_cases same : a = mark
    · simp only [cutFirst, if_pos same, Option.some.injEq, Prod.mk.injEq] at cut
      obtain ⟨rfl, rfl⟩ := cut
      simp [same]
    · simp only [cutFirst, if_neg same, Option.map_eq_some_iff, Prod.mk.injEq, Prod.exists] at cut
      obtain ⟨front, back, inner, rfl, rfl⟩ := cut
      simp [ih inner]

theorem eq_of_cutLast {mark : α} {text before after : List α}
    (cut : cutLast mark text = some (before, after)) : text = before ++ mark :: after := by
  simp only [cutLast, Option.map_eq_some_iff, Prod.mk.injEq, Prod.exists] at cut
  obtain ⟨back, front, inner, rfl, rfl⟩ := cut
  have whole := congrArg List.reverse (eq_of_cutFirst inner)
  simpa using whole

example : cutFirst ':' "a:b:c".toList = some ("a".toList, "b:c".toList) := by decide +kernel

example : cutLast '.' "a.b.c".toList = some ("a.b".toList, "c".toList) := by decide +kernel

end CommandLang.Text
