import CommandLang.Proofs.First
import CommandLang.Proofs.Grammar
import Mathlib.Data.List.Basic

/-! Numbers are only names: a grammar and its numbered form derive the same sequences. Different
symbols of the grammar have different numbers, and the table of terminals reads the numbers back. -/

namespace CommandLang

/-- What numbering a grammar guarantees: no rule uses an undefined nonterminal or a control token. -/
structure Numbered.Lawful (g : Numbered) : Prop where
  defined : g.Defined
  start : ∃ rhs, g.HasRule g.start rhs
  uncontrolled : ∀ rule ∈ g.ruleList, ∀ token, .terminal token ∈ rule.rhs → Token.controls ≤ token

namespace Grammar

variable (g : Grammar)

def symbolNumber : Symbol Terminal String → Symbol Nat Nat := Symbol.number g.rules.keys g.terminals

theorem terminals_nodup : g.terminals.Nodup := nodup_eraseDups _

variable {g}

theorem extensible_mem_terminals {name : String} {vocabulary : List String}
    (declared : g.extensible.get? name = some vocabulary) : .extensible name ∈ g.terminals := by
  have key := OrderedMap.contains_iff.mp (OrderedMap.contains_of_get? declared)
  exact g.mem_terminals.mpr (Or.inr (Or.inl ⟨name, key, rfl⟩))

theorem copy_of_mem_terminals {name : String} (member : .copy name ∈ g.terminals) :
    ∃ declaration, g.copy.get? name = some declaration := by
  rcases g.mem_terminals.mp member with ⟨lhs, rhs, known, used⟩ | ⟨_, _, other⟩ | ⟨_, declared, same⟩
  · exact g.copy_declared known used
  · cases other
  · cases same
    exact OrderedMap.get?_of_contains (OrderedMap.contains_iff.mpr declared)

theorem number_hasRule {lhs : Nat} {rhs : NumberedSymbols} :
    g.number.HasRule lhs rhs ↔
      ∃ name source, g.HasRule name source ∧ lhs = g.rules.keys.idxOf name ∧ rhs = source.map g.symbolNumber := by
  simp only [Numbered.HasRule, number, List.mem_toArray, List.mem_map, Prod.exists, Rule.mk.injEq]
  constructor
  · rintro ⟨name, source, known, rfl, rfl⟩
    exact ⟨name, source, known, rfl, rfl⟩
  · rintro ⟨name, source, known, rfl, rfl⟩
    exact ⟨name, source, known, rfl, rfl⟩

theorem symbolNumber_eq_nonterminal {symbol : Symbol Terminal String} {lhs : String} {rhs : Rhs}
    (known : g.HasRule lhs rhs) (same : g.symbolNumber symbol = .nonterminal (g.rules.keys.idxOf lhs)) :
    symbol = .nonterminal lhs := by
  cases symbol with
  | terminal t => cases same
  | nonterminal name =>
    have equal := Symbol.nonterminal.inj same
    rw [(List.idxOf_inj known.mem_keys).mp equal.symm]

theorem symbolNumber_eq_terminal {symbol : Symbol Terminal String} {terminal : Terminal}
    (member : terminal ∈ g.terminals) (same : g.symbolNumber symbol = g.symbolNumber (.terminal terminal)) :
    symbol = .terminal terminal := by
  cases symbol with
  | nonterminal name => cases same
  | terminal other =>
    have equal := Symbol.terminal.inj same
    rw [(List.idxOf_inj member).mp (by omega : g.terminals.idxOf terminal = g.terminals.idxOf other)]

private theorem number_defined : g.number.Defined where
  named := by
    rintro ⟨lhs, rhs⟩ member
    obtain ⟨name, source, known, rfl, rfl⟩ := number_hasRule.mp (Numbered.hasRule_iff.mpr member)
    simpa [number] using List.idxOf_lt_length_of_mem known.mem_keys
  ruled := by
    rintro ⟨lhs, rhs⟩ member a used
    obtain ⟨name, source, known, rfl, rfl⟩ := number_hasRule.mp (Numbered.hasRule_iff.mpr member)
    obtain ⟨symbol, inside, same⟩ := List.mem_map.mp used
    cases symbol with
    | terminal t => cases same
    | nonterminal other =>
      obtain rfl := Symbol.nonterminal.inj same
      obtain ⟨rhs, ruled⟩ := g.ruled known inside
      exact ⟨_, Numbered.hasRule_iff.mp (number_hasRule.mpr ⟨other, rhs, ruled, rfl, rfl⟩), rfl⟩

theorem number_lawful (g : Grammar) : g.number.Lawful where
  defined := number_defined
  start := by
    obtain ⟨rhs, known⟩ := g.start_ruled
    exact ⟨_, number_hasRule.mpr ⟨g.start, rhs, known, rfl, rfl⟩⟩
  uncontrolled := by
    rintro ⟨lhs, rhs⟩ member token used
    obtain ⟨name, source, known, rfl, rfl⟩ := number_hasRule.mp (Numbered.hasRule_iff.mpr member)
    obtain ⟨symbol, inside, same⟩ := List.mem_map.mp used
    cases symbol with
    | nonterminal other => cases same
    | terminal t =>
      obtain rfl := Symbol.terminal.inj same
      exact Nat.le_add_right _ _

theorem terminal?_number {token : Nat} {terminal : Terminal} :
    g.number.terminal? token = some terminal ↔
      terminal ∈ g.terminals ∧ .terminal token = g.symbolNumber (.terminal terminal) := by
  have split : g.number.terminal? token = some terminal ↔
      Token.controls ≤ token ∧ g.terminals[token - Token.controls]? = some terminal := by
    simp only [Numbered.terminal?, number, List.getElem?_toArray]
    split
    · simp; omega
    · simp; omega
  rw [split]
  simp only [symbolNumber, Symbol.number, Symbol.terminal.injEq]
  constructor
  · rintro ⟨above, found⟩
    obtain ⟨inside, rfl⟩ := List.getElem?_eq_some_iff.mp found
    refine ⟨List.getElem_mem inside, ?_⟩
    rw [terminals_nodup g |>.idxOf_getElem]
    omega
  · rintro ⟨member, rfl⟩
    exact ⟨Nat.le_add_right _ _, by simp [List.getElem?_idxOf member]⟩

theorem terminal?_number_inj {token other : Nat} {terminal : Terminal} (left : g.number.terminal? token = some terminal)
    (right : g.number.terminal? other = some terminal) : token = other :=
  Symbol.terminal.inj ((terminal?_number.mp left).2.trans (terminal?_number.mp right).2.symm)

theorem derives_number {before after : Rhs} (derived : Derives g.HasRule before after) :
    Derives g.number.HasRule (before.map g.symbolNumber) (after.map g.symbolNumber) := by
  induction derived with
  | refl => exact .refl
  | tail _ step ih =>
    cases step with
    | intro front back known =>
      refine ih.tail ?_
      simp only [List.map_append, List.map_cons]
      exact .intro _ _ (number_hasRule.mpr ⟨_, _, known, rfl, rfl⟩)

theorem derives_of_number (before : Rhs) {after : NumberedSymbols}
    (derived : Derives g.number.HasRule (before.map g.symbolNumber) after) :
    ∃ source, after = source.map g.symbolNumber ∧ Derives g.HasRule before source := by
  induction derived with
  | refl => exact ⟨before, rfl, .refl⟩
  | tail _ step ih =>
    obtain ⟨source, same, derived⟩ := ih
    cases step with
    | @intro front back lhs rhs known =>
      obtain ⟨name, body, ruled, rfl, rfl⟩ := number_hasRule.mp known
      obtain ⟨left, rest, rfl, rfl, tail⟩ := List.map_eq_append_iff.mp same.symm
      obtain ⟨symbol, right, rfl, single, rfl⟩ := List.map_eq_cons_iff.mp tail
      obtain rfl := symbolNumber_eq_nonterminal ruled single
      exact ⟨left ++ body ++ right, by simp, derived.rewrite ruled⟩

theorem numbers_of_named {word : List Terminal} {tokens : List Nat}
    (named : List.Forall₂ (fun token terminal => g.number.terminal? token = some terminal) tokens word) :
    tokens.map Symbol.terminal = (word.map Symbol.terminal).map g.symbolNumber := by
  induction named with
  | nil => rfl
  | cons first _ ih => simp only [List.map_cons, ih, (terminal?_number.mp first).2]

theorem eq_of_numbers {word : List Terminal} {tokens : List Nat} {source : Rhs}
    (named : List.Forall₂ (fun token terminal => g.number.terminal? token = some terminal) tokens word)
    (same : tokens.map Symbol.terminal = source.map g.symbolNumber) : source = word.map .terminal := by
  induction named generalizing source with
  | nil => simpa using same
  | cons first _ ih =>
    obtain ⟨symbol, more, rfl, number, others⟩ := List.map_eq_cons_iff.mp same.symm
    obtain ⟨known, read⟩ := terminal?_number.mp first
    rw [ih others.symm, symbolNumber_eq_terminal known (number.trans read)]
    rfl

theorem exists_terminals_of_numbers {tokens : List Nat} {source : Rhs}
    (same : tokens.map Symbol.terminal = source.map g.symbolNumber) : ∃ word : List Terminal, source = word.map .terminal := by
  induction tokens generalizing source with
  | nil => exact ⟨[], by simpa using same⟩
  | cons token tokens ih =>
    obtain ⟨symbol, more, rfl, number, others⟩ := List.map_eq_cons_iff.mp same.symm
    obtain ⟨word, rfl⟩ := ih others.symm
    cases symbol with
    | terminal terminal => exact ⟨terminal :: word, rfl⟩
    | nonterminal => cases number

theorem generates_iff {word : List Terminal} {tokens : List Nat}
    (named : List.Forall₂ (fun token terminal => g.number.terminal? token = some terminal) tokens word) :
    g.Generates word ↔ Derives g.number.HasRule [.nonterminal g.number.start] (tokens.map .terminal) := by
  rw [numbers_of_named named]
  refine ⟨derives_number, ?_⟩
  intro derived
  obtain ⟨source, same, result⟩ := derives_of_number [.nonterminal g.start] derived
  rwa [eq_of_numbers named ((numbers_of_named named).trans same)] at result

end Grammar

end CommandLang
