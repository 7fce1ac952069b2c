import CommandLang.Grammar.Basic
import CommandLang.Proofs.Contexts
import Mathlib.Data.List.Chain

/-! Outlines of grammars. An outline has few symbols, and the symbols of a grammar are folded together so that its rules
become rules of the outline. Tables tell what can come first in a nonterminal, right behind it, and right before it. They
are checked rule by rule, and then they hold of whatever the grammar derives and of all states of its automaton. -/

namespace CommandLang

def Symbol.map {τ ν σ μ : Type} (word : τ → σ) (part : ν → μ) : Symbol τ ν → Symbol σ μ
  | .terminal symbol => .terminal (word symbol)
  | .nonterminal symbol => .nonterminal (part symbol)

@[simp] theorem Symbol.map_terminal {τ ν σ μ : Type} (word : τ → σ) (part : ν → μ) (symbol : τ) :
    (Symbol.terminal symbol).map word part = .terminal (word symbol) := rfl

@[simp] theorem Symbol.map_nonterminal {τ ν σ μ : Type} (word : τ → σ) (part : ν → μ) (symbol : ν) :
    (Symbol.nonterminal symbol).map word part = .nonterminal (part symbol) := rfl

def agree {α : Type} [DecidableEq α] : List α → List α → Bool
  | x :: left, y :: right => x = y && agree left right
  | _, _ => true

theorem agree_of_begins {α : Type} [DecidableEq α] {left right whole : List α} (one : left <+: whole) (other : right <+: whole) :
    agree left right = true := by
  induction left generalizing right whole with
  | nil => rfl
  | cons x left ih =>
    cases right with
    | nil => rfl
    | cons y right =>
      obtain ⟨more, rfl⟩ := one
      rw [List.cons_append, List.cons_prefix_cons] at other
      obtain ⟨rfl, other⟩ := other
      simpa [agree] using ih (List.prefix_append left more) other

/-- Whether a relation holds between all members of two lists that have the same tag. The lists are divided by the digits
of the tags, so that few members are compared. -/
def relatesTagged {α : Type} (tag : α → Nat) (related : α → α → Bool) : (digits : Nat) → List α → List α → Bool
  | 0, left, right => left.all fun x => right.all (related x)
  | digit + 1, left, right => left.isEmpty || right.isEmpty ||
    relatesTagged tag related digit (left.filter fun x => (tag x).testBit digit) (right.filter fun y => (tag y).testBit digit) &&
      relatesTagged tag related digit (left.filter fun x => !(tag x).testBit digit) (right.filter fun y => !(tag y).testBit digit)

theorem related_of_relatesTagged {α : Type} {tag : α → Nat} {related : α → α → Bool} {digits : Nat} {left right : List α}
    (checked : relatesTagged tag related digits left right = true) {x y : α} (first : x ∈ left) (second : y ∈ right)
    (same : tag x = tag y) : related x y = true := by
  induction digits generalizing left right with
  | zero => exact List.all_eq_true.mp (List.all_eq_true.mp checked x first) y second
  | succ digit ih =>
    simp only [relatesTagged, Bool.or_eq_true, Bool.and_eq_true, List.isEmpty_iff] at checked
    rcases checked with (rfl | rfl) | ⟨set, unset⟩
    · cases first
    · cases second
    · cases bit : (tag x).testBit digit with
      | true => exact ih set (List.mem_filter.mpr ⟨first, bit⟩) (List.mem_filter.mpr ⟨second, same ▸ bit⟩)
      | false =>
        refine ih unset (List.mem_filter.mpr ⟨first, ?_⟩) (List.mem_filter.mpr ⟨second, ?_⟩)
        · simp [bit]
        · simp [← same, bit]

/-- A place in a rule: what stands before it, nearest first, and what comes behind. -/
structure Place (τ ν : Type) where
  lhs : ν
  seen : List (Symbol τ ν)
  rest : List (Symbol τ ν)

/-- The places in a rule behind the symbols that were seen. -/
def Place.ofRule {τ ν : Type} (lhs : ν) (seen : List (Symbol τ ν)) : List (Symbol τ ν) → List (Place τ ν)
  | [] => [⟨lhs, seen, []⟩]
  | x :: rest => ⟨lhs, seen, x :: rest⟩ :: ofRule lhs (x :: seen) rest

theorem Place.mem_ofRule {τ ν : Type} (lhs : ν) (seen front back : List (Symbol τ ν)) :
    ⟨lhs, front.reverse ++ seen, back⟩ ∈ ofRule lhs seen (front ++ back) := by
  induction front generalizing seen with
  | nil => cases back <;> simp [ofRule]
  | cons x front ih => simpa [ofRule] using Or.inr (ih (x :: seen))

/-- Rules with tables of what can stand in and around their nonterminals. -/
structure Outline (τ ν : Type) where
  rules : List (ν × List (Symbol τ ν))
  /-- The terminals that can come first in what a nonterminal derives. -/
  first : ν → List τ
  /-- The terminals that can come right behind a nonterminal. -/
  behind : ν → List τ
  /-- The symbols that can stand right before a nonterminal, nearest first. Nothing stands before `none`. -/
  before : ν → List (List (Option (Symbol τ ν)))
  /-- Numbers to sort symbols by. -/
  code : Symbol τ ν → Nat

namespace Outline

variable {τ ν : Type} [DecidableEq τ] [DecidableEq ν] (o : Outline τ ν)

def starts : Symbol τ ν → List τ
  | .terminal symbol => [symbol]
  | .nonterminal a => o.first a

/-- Whether whatever the second symbol starts with can come behind the first. -/
def joint : Symbol τ ν → Symbol τ ν → Bool
  | .terminal _, _ => true
  | .nonterminal a, next => (o.starts next).all (· ∈ o.behind a)

def joined : List (Symbol τ ν) → Bool
  | x :: y :: rest => o.joint x y && joined (y :: rest)
  | _ => true

/-- Whether the tables of what comes first and behind take a rule into account. -/
def surrounds (lhs : ν) (rhs : List (Symbol τ ν)) : Bool :=
  (rhs.head?.any fun x => (o.starts x).all (· ∈ o.first lhs)) && o.joined rhs &&
    rhs.getLast?.all fun x => (o.behind lhs).all fun t => o.joint x (.terminal t)

def places : List (Place τ ν) := o.rules.flatMap fun rule => Place.ofRule rule.1 [] rule.2

def precedes (place : Place τ ν) : Bool :=
  match place.rest with
  | .nonterminal a :: _ =>
    (o.before place.lhs).all fun context => (o.before a).any (·.isPrefixOf (place.seen.map some ++ context))
  | _ => true

def alike (left right : Place τ ν) : Bool :=
  agree left.seen right.seen && (o.before left.lhs).any fun context => (o.before right.lhs).any fun context' =>
    agree (left.seen.map some ++ context) (right.seen.map some ++ context')

/-- Whether the end of a rule is told from another place by what stands before and behind. -/
def tells (whole other : Place τ ν) : Bool :=
  !o.alike whole other || match other.rest with
    | x :: _ => (o.starts x).all (· ∉ o.behind whole.lhs)
    | [] => (whole.lhs = other.lhs && whole.seen = other.seen) || (o.behind whole.lhs).all (· ∉ o.behind other.lhs)

def entered : List (Place τ ν) := o.places.filter fun place => !place.seen.isEmpty

def tag (place : Place τ ν) : Nat := (place.seen.head?.map o.code).getD 0

def codeDigits : Nat := 7

/-- Whether the tables take all rules into account, and the end of every rule is told from all other places. -/
def sound : Bool :=
  (o.rules.all fun rule => o.surrounds rule.1 rule.2) && o.places.all o.precedes &&
    relatesTagged o.tag o.tells codeDigits (o.entered.filter (·.rest.isEmpty)) o.entered

variable {o} {lhs other : ν} {rhs front back : List (Symbol τ ν)} {x next : Symbol τ ν}

omit [DecidableEq τ] [DecidableEq ν] in
theorem mem_places (known : (lhs, front ++ back) ∈ o.rules) : ⟨lhs, front.reverse, back⟩ ∈ o.places := by
  have place := Place.mem_ofRule lhs [] front back
  rw [List.append_nil] at place
  exact List.mem_flatMap.mpr ⟨_, known, place⟩

omit [DecidableEq ν] in
theorem joint_iff : o.joint x next = true ↔ ∀ t ∈ o.starts next, o.joint x (.terminal t) = true := by
  cases x <;> simp [joint, starts]

omit [DecidableEq ν] in
theorem isChain_of_joined (joined : o.joined rhs = true) : rhs.IsChain fun x y => o.joint x y = true := by
  induction rhs with
  | nil => exact .nil
  | cons x rest ih =>
    cases rest with
    | nil => exact .singleton x
    | cons y rest =>
      simp only [Outline.joined, Bool.and_eq_true] at joined
      exact List.isChain_cons_cons.mpr ⟨joined.1, ih joined.2⟩

omit [DecidableEq ν] in
theorem exists_head_of_surrounds (surrounds : o.surrounds lhs rhs = true) :
    ∃ x, rhs.head? = some x ∧ ∀ t ∈ o.starts x, t ∈ o.first lhs := by
  simp only [Outline.surrounds, Bool.and_eq_true, Option.any_eq_true, List.all_eq_true, decide_eq_true_eq] at surrounds
  exact surrounds.1.1

omit [DecidableEq ν] in
theorem isChain_of_surrounds (surrounds : o.surrounds lhs rhs = true)
    (chain : (front ++ .nonterminal lhs :: back).IsChain fun x y => o.joint x y = true) :
    (front ++ rhs ++ back).IsChain fun x y => o.joint x y = true := by
  obtain ⟨opening, found, first⟩ := exists_head_of_surrounds surrounds
  simp only [Outline.surrounds, Bool.and_eq_true, Option.all_eq_true, List.all_eq_true] at surrounds
  obtain ⟨⟨_, joined⟩, last⟩ := surrounds
  have nonempty : rhs ≠ [] := List.ne_nil_of_mem (List.mem_of_head? found)
  obtain ⟨before, later, joint⟩ := List.isChain_append.mp chain
  obtain ⟨follows, after⟩ := List.isChain_cons.mp later
  rw [List.append_assoc]
  refine List.isChain_append.mpr ⟨before, List.isChain_append.mpr ⟨isChain_of_joined joined, after, ?_⟩, ?_⟩
  · intro x ending next begins
    have allowed : ∀ t ∈ o.starts next, t ∈ o.behind lhs := by simpa [Outline.joint] using follows next begins
    exact joint_iff.mpr fun t start => last x ending t (allowed t start)
  · intro x ending next begins
    rw [List.head?_append_of_ne_nil _ nonempty, found] at begins
    obtain rfl := Option.some.inj begins
    exact joint_iff.mpr fun t start => joint_iff.mp (joint x ending _ rfl) t (first t start)

theorem surrounds_of_sound (sound : o.sound = true) (known : (lhs, rhs) ∈ o.rules) :
    o.surrounds lhs rhs = true := by
  simp only [Outline.sound, Bool.and_eq_true, List.all_eq_true] at sound
  exact sound.1.1 _ known

/-- What stands before a place in a rule can stand before the nonterminal there. -/
theorem exists_before_of_sound (sound : o.sound = true) {a : ν} (known : (lhs, front ++ .nonterminal a :: back) ∈ o.rules)
    {context : List (Option (Symbol τ ν))} (listed : context ∈ o.before lhs) :
    ∃ inner ∈ o.before a, inner <+: front.reverse.map some ++ context := by
  simp only [Outline.sound, Bool.and_eq_true, List.all_eq_true] at sound
  have checked := sound.1.2 _ (mem_places known)
  simp only [precedes, List.all_eq_true, List.any_eq_true, List.isPrefixOf_iff_prefix] at checked
  exact checked context listed

theorem tells_of_sound (sound : o.sound = true) (known : (lhs, rhs) ∈ o.rules) (known' : (other, front ++ back) ∈ o.rules)
    (some : front ≠ []) (same : rhs.getLast? = front.getLast?) :
    o.tells ⟨lhs, rhs.reverse, []⟩ ⟨other, front.reverse, back⟩ = true := by
  simp only [Outline.sound, Bool.and_eq_true] at sound
  have some' : rhs ≠ [] := by
    rintro rfl
    exact some (List.getLast?_eq_none_iff.mp same.symm)
  have whole : ⟨lhs, rhs.reverse, []⟩ ∈ o.places := mem_places (by rwa [List.append_nil])
  have place := mem_places known'
  refine related_of_relatesTagged sound.2 (List.mem_filter.mpr ⟨List.mem_filter.mpr ⟨whole, ?_⟩, rfl⟩)
    (List.mem_filter.mpr ⟨place, ?_⟩) ?_
  · simpa using some'
  · simpa using some
  · simp only [tag, List.head?_reverse, same]

end Outline

end CommandLang
