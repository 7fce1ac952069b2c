import CommandLang.Grammar.Numbered
import Mathlib.Logic.Relation

/-! What a grammar derives. Rules are given as a relation between a nonterminal and its right-hand
sides, so that a draft and its numbered form derive by one definition. -/

namespace CommandLang

variable {τ ν : Type} {rule : ν → List (Symbol τ ν) → Prop}

theorem append_cons_eq_append {α : Type} {front back left right : List α} {a : α}
    (whole : front ++ a :: back = left ++ right) :
    (∃ inner, left = front ++ a :: inner ∧ back = inner ++ right) ∨
    ∃ inner, front = left ++ inner ∧ right = inner ++ a :: back := by
  rcases List.append_eq_append_iff.mp whole with ⟨inner, rfl, rest⟩ | ⟨inner, rfl, rest⟩
  · cases inner with
    | nil => exact Or.inr ⟨[], by simp, rest.symm⟩
    | cons first inner =>
      obtain ⟨rfl, rfl⟩ := List.cons.inj rest
      exact Or.inl ⟨inner, rfl, rfl⟩
  · exact Or.inr ⟨inner, rfl, rest⟩

theorem append_cons_inj {α : Type} {mark : α} {front back left right : List α}
    (same : front ++ mark :: back = left ++ mark :: right) (clear : mark ∉ back) (clear' : mark ∉ right) :
    front = left ∧ back = right := by
  rcases append_cons_eq_append same with ⟨inner, whole, behind⟩ | ⟨inner, whole, behind⟩
  · exact absurd (behind ▸ List.mem_append_right inner (List.mem_cons_self ..)) clear
  · cases inner with
    | nil => exact ⟨by simpa using whole, (List.cons.inj behind).2.symm⟩
    | cons first inner =>
      have later := (List.cons.inj behind).2
      exact absurd (later ▸ List.mem_append_right inner (List.mem_cons_self ..)) clear'

/-- One nonterminal is replaced by one of its right-hand sides. -/
inductive Rewrites (rule : ν → List (Symbol τ ν) → Prop) : List (Symbol τ ν) → List (Symbol τ ν) → Prop where
  | intro (front back : List (Symbol τ ν)) {lhs : ν} {rhs : List (Symbol τ ν)} (known : rule lhs rhs) :
    Rewrites rule (front ++ .nonterminal lhs :: back) (front ++ rhs ++ back)

abbrev Derives (rule : ν → List (Symbol τ ν) → Prop) : List (Symbol τ ν) → List (Symbol τ ν) → Prop :=
  Relation.ReflTransGen (Rewrites rule)

def Draft.HasRule (d : Draft) (lhs : String) (rhs : Rhs) : Prop := (lhs, rhs) ∈ d.ruleList

def Draft.Generates (d : Draft) (word : List Terminal) : Prop :=
  Derives d.HasRule [.nonterminal d.start] (word.map .terminal)

def Numbered.HasRule (g : Numbered) (lhs : Nat) (rhs : List (Symbol Nat Nat)) : Prop := ⟨lhs, rhs⟩ ∈ g.rules

theorem Rewrites.append_left {before after : List (Symbol τ ν)} (step : Rewrites rule before after)
    (more : List (Symbol τ ν)) : Rewrites rule (more ++ before) (more ++ after) := by
  cases step with
  | intro front back known => simpa using Rewrites.intro (more ++ front) back known

theorem Rewrites.append_right {before after : List (Symbol τ ν)} (step : Rewrites rule before after)
    (more : List (Symbol τ ν)) : Rewrites rule (before ++ more) (after ++ more) := by
  cases step with
  | intro front back known => simpa using Rewrites.intro front (back ++ more) known

theorem Rewrites.split {left right after : List (Symbol τ ν)} (step : Rewrites rule (left ++ right) after) :
    (∃ changed, Rewrites rule left changed ∧ after = changed ++ right) ∨
    ∃ changed, Rewrites rule right changed ∧ after = left ++ changed := by
  generalize whole : left ++ right = before at step
  cases step with
  | @intro front back lhs rhs known =>
    rcases append_cons_eq_append whole.symm with ⟨inner, rfl, rfl⟩ | ⟨inner, rfl, rfl⟩
    · exact Or.inl ⟨front ++ rhs ++ inner, .intro front inner known, by simp⟩
    · exact Or.inr ⟨inner ++ rhs ++ back, .intro inner back known, by simp⟩

namespace Derives

theorem append_left {before after : List (Symbol τ ν)} (derived : Derives rule before after)
    (more : List (Symbol τ ν)) : Derives rule (more ++ before) (more ++ after) := by
  induction derived with
  | refl => exact .refl
  | tail _ step ih => exact ih.tail (step.append_left more)

theorem append_right {before after : List (Symbol τ ν)} (derived : Derives rule before after)
    (more : List (Symbol τ ν)) : Derives rule (before ++ more) (after ++ more) := by
  induction derived with
  | refl => exact .refl
  | tail _ step ih => exact ih.tail (step.append_right more)

theorem append {left right left' right' : List (Symbol τ ν)} (first : Derives rule left left')
    (second : Derives rule right right') : Derives rule (left ++ right) (left' ++ right') :=
  (first.append_right right).trans (second.append_left left')

theorem rewrite {before front back rhs : List (Symbol τ ν)} {lhs : ν}
    (derived : Derives rule before (front ++ .nonterminal lhs :: back)) (known : rule lhs rhs) :
    Derives rule before (front ++ rhs ++ back) :=
  derived.tail (.intro front back known)

theorem of_rule {lhs : ν} {rhs : List (Symbol τ ν)} (known : rule lhs rhs) :
    Derives rule [.nonterminal lhs] rhs := by
  simpa using Relation.ReflTransGen.single (Rewrites.intro [] [] known)

theorem split (left : List (Symbol τ ν)) {right after : List (Symbol τ ν)} (derived : Derives rule (left ++ right) after) :
    ∃ left' right', after = left' ++ right' ∧ Derives rule left left' ∧ Derives rule right right' := by
  induction derived with
  | refl => exact ⟨left, right, rfl, .refl, .refl⟩
  | tail _ step ih =>
    obtain ⟨left', right', rfl, first, second⟩ := ih
    rcases step.split with ⟨changed, rewritten, rfl⟩ | ⟨changed, rewritten, rfl⟩
    · exact ⟨changed, right', rfl, first.tail rewritten, second⟩
    · exact ⟨left', changed, rfl, first, second.tail rewritten⟩

theorem eq_of_terminals (word : List τ) {after : List (Symbol τ ν)}
    (derived : Derives rule (word.map .terminal) after) : after = word.map .terminal := by
  rcases Relation.ReflTransGen.cases_head derived with same | ⟨next, step, _⟩
  · exact same.symm
  · generalize whole : word.map Symbol.terminal = before at step
    cases step with
    | @intro front back lhs rhs known =>
      have member : Symbol.nonterminal lhs ∈ word.map (Symbol.terminal : τ → Symbol τ ν) := by simp [whole]
      simp at member

theorem eq_nil {after : List (Symbol τ ν)} (derived : Derives rule [] after) : after = [] :=
  eq_of_terminals [] derived

theorem append_nil_iff {left right : List (Symbol τ ν)} :
    Derives rule (left ++ right) [] ↔ Derives rule left [] ∧ Derives rule right [] := by
  constructor
  · intro derived
    obtain ⟨first, second, whole, near, far⟩ := Derives.split left derived
    obtain ⟨rfl, rfl⟩ := List.append_eq_nil_iff.mp whole.symm
    exact ⟨near, far⟩
  · rintro ⟨near, far⟩
    exact near.append far

theorem nonterminal_iff {lhs : ν} {after : List (Symbol τ ν)} (changed : after ≠ [.nonterminal lhs]) :
    Derives rule [.nonterminal lhs] after ↔ ∃ rhs, rule lhs rhs ∧ Derives rule rhs after := by
  constructor
  · intro derived
    rcases Relation.ReflTransGen.cases_head derived with same | ⟨next, step, later⟩
    · exact absurd same.symm changed
    · generalize whole : [Symbol.nonterminal lhs] = before at step
      cases step with
      | @intro front back name rhs known =>
        obtain ⟨rfl, same, rfl⟩ : front = [] ∧ Symbol.nonterminal lhs = (Symbol.nonterminal name : Symbol τ ν) ∧ back = [] := by
          cases front with
          | nil => simpa using whole
          | cons first front => simp at whole
        cases same
        exact ⟨rhs, known, by simpa using later⟩
  · rintro ⟨rhs, known, derived⟩
    exact (of_rule known).trans derived

end Derives

end CommandLang
