import CommandLang.Proofs.Declarations
import CommandLang.Proofs.Naming

/-! Numbering in one pass. Terminals take numbers as they are met, a new one the number that the size of the table
leaves; a pass over all rules and then over the classes hands out the numbers of the numbered grammar. -/

namespace CommandLang

theorem idxOf_eraseDups_append {α : Type} [DecidableEq α] {seen : List α} {a : α} (known : a ∈ seen) (more : List α) :
    (seen ++ more).eraseDups.idxOf a = seen.eraseDups.idxOf a := by
  rw [List.eraseDups_append, List.idxOf_append_of_mem (by simpa using known)]

theorem idxOf?_of_mem {α : Type} [BEq α] [LawfulBEq α] {items : List α} {a : α} (member : a ∈ items) :
    items.idxOf? a = some (items.idxOf a) := by
  obtain ⟨place, found⟩ := Option.isSome_iff_exists.mp (List.isSome_idxOf?.mpr member)
  rw [List.idxOf_eq_getD_idxOf?, found, Option.getD_some]

theorem mapM_eq_some_map {α β : Type} {f : α → Option β} {g : α → β} {items : List α}
    (each : ∀ item ∈ items, f item = some (g item)) : items.mapM f = some (items.map g) := by
  induction items with
  | nil => rfl
  | cons item rest ih =>
    rw [List.forall_mem_cons] at each
    rw [List.mapM_cons, each.1, ih each.2]
    rfl

/-- Numbers and their terminals, in the order in which the numbers were handed out. -/
abbrev TokenTable := List (Nat × Terminal)

namespace TokenTable

/-- Puts a pair behind the others; what has its number or its terminal already goes out. -/
def insert (table : TokenTable) (token : Nat) (terminal : Terminal) : TokenTable :=
  table.filter (fun entry => entry.1 ≠ token ∧ entry.2 ≠ terminal) ++ [(token, terminal)]

def token? (table : TokenTable) (terminal : Terminal) : Option Nat := (table.find? (·.2 = terminal)).map Prod.fst

def store (terminal : Terminal) (table : TokenTable) : Nat × TokenTable :=
  match table.token? terminal with
  | some token => (token, table)
  | none => (Token.controls + table.length, table.insert (Token.controls + table.length) terminal)

/-- The sizes of vocabularies, each under the number of its class. -/
def sizes? (table : TokenTable) (classes : List (String × List String)) : Option (List (Nat × Nat)) :=
  classes.mapM fun (name, vocabulary) => return (← table.token? (.extensible name), vocabulary.length)

def ofTerminals (first : Nat) : List Terminal → TokenTable
  | [] => []
  | terminal :: rest => (first, terminal) :: ofTerminals (first + 1) rest

@[simp] theorem terminals_ofTerminals (first : Nat) (terminals : List Terminal) :
    (ofTerminals first terminals).map Prod.snd = terminals := by
  induction terminals generalizing first with
  | nil => rfl
  | cons terminal rest ih => rw [ofTerminals, List.map_cons, ih]

@[simp] theorem length_ofTerminals (first : Nat) (terminals : List Terminal) :
    (ofTerminals first terminals).length = terminals.length := by
  rw [← List.length_map Prod.snd, terminals_ofTerminals]

theorem ofTerminals_concat (first : Nat) (terminals : List Terminal) (last : Terminal) :
    ofTerminals first (terminals ++ [last]) = ofTerminals first terminals ++ [(first + terminals.length, last)] := by
  induction terminals generalizing first with
  | nil => rfl
  | cons terminal rest ih =>
    rw [List.cons_append, ofTerminals, ih, ofTerminals, List.cons_append, List.length_cons, Nat.add_right_comm, Nat.add_assoc]

theorem lt_and_mem_of_mem_ofTerminals {first token : Nat} {terminals : List Terminal} {terminal : Terminal}
    (entry : (token, terminal) ∈ ofTerminals first terminals) : token < first + terminals.length ∧ terminal ∈ terminals := by
  induction terminals generalizing first with
  | nil => cases entry
  | cons other rest ih =>
    rw [List.length_cons]
    rcases List.mem_cons.mp entry with same | later
    · cases same
      exact ⟨by omega, List.mem_cons_self ..⟩
    · obtain ⟨below, member⟩ := ih later
      exact ⟨by omega, List.mem_cons_of_mem _ member⟩

theorem token?_ofTerminals (first : Nat) (terminals : List Terminal) (terminal : Terminal) :
    (ofTerminals first terminals).token? terminal =
      if terminal ∈ terminals then some (first + terminals.idxOf terminal) else none := by
  induction terminals generalizing first with
  | nil => rfl
  | cons other rest ih =>
    by_cases same : other = terminal
    · simp [token?, ofTerminals, same]
    · have later := ih (first + 1)
      rw [token?] at later
      rw [token?, ofTerminals, List.find?_cons_of_neg (by simpa using same), later, List.idxOf_cons_ne _ same]
      simp only [List.mem_cons, Ne.symm same, false_or]
      split
      · rw [Nat.succ_eq_add_one, Nat.add_right_comm, Nat.add_assoc]
      · rfl

theorem insert_ofTerminals {first : Nat} {terminals : List Terminal} {terminal : Terminal} (fresh : terminal ∉ terminals) :
    (ofTerminals first terminals).insert (first + terminals.length) terminal = ofTerminals first (terminals ++ [terminal]) := by
  rw [insert, ofTerminals_concat, List.filter_eq_self.mpr]
  rintro ⟨token, other⟩ entry
  obtain ⟨below, member⟩ := lt_and_mem_of_mem_ofTerminals entry
  have apart : other ≠ terminal := fun same => fresh (same ▸ member)
  simp only [ne_eq, decide_eq_true_eq]
  exact ⟨by omega, apart⟩

/-- The table when terminals were met: the different ones are numbered in the order in which each came first. -/
def ofMet (met : List Terminal) : TokenTable := ofTerminals Token.controls met.eraseDups

theorem store_ofMet (met : List Terminal) (terminal : Terminal) :
    store terminal (ofMet met) =
      (Token.controls + (met ++ [terminal]).eraseDups.idxOf terminal, ofMet (met ++ [terminal])) := by
  rw [ofMet, ofMet, store, token?_ofTerminals, eraseDups_concat]
  by_cases known : terminal ∈ met.eraseDups
  · simp only [if_pos known]
  · simp only [if_neg known, length_ofTerminals, insert_ofTerminals known]
    rw [List.idxOf_append_of_notMem known, List.idxOf_cons_self, Nat.add_zero]

theorem foldl_store (terminals met : List Terminal) :
    terminals.foldl (fun table terminal => (store terminal table).2) (ofMet met) = ofMet (met ++ terminals) := by
  induction terminals generalizing met with
  | nil => rw [List.foldl_nil, List.append_nil]
  | cons terminal rest ih => rw [List.foldl_cons, store_ofMet, ih, List.append_assoc, List.singleton_append]

end TokenTable

def Symbol.handOut? (names : List String) : Symbol Terminal String → StateT TokenTable Option (Symbol Nat Nat)
  | .terminal symbol => return .terminal (← modifyGet (TokenTable.store symbol))
  | .nonterminal name => return .nonterminal (← names.idxOf? name)

namespace Draft

def usedTerminals (d : Draft) : List Terminal := d.ruleList.flatMap fun rule => rule.2.filterMap Symbol.terminal?

def classTerminals (d : Draft) : List Terminal := d.extensible.keys.map .extensible ++ d.copy.keys.map .copy

theorem terminals_eq (d : Draft) : d.terminals = (d.usedTerminals ++ d.classTerminals).eraseDups := by
  rw [terminals, List.append_assoc]
  rfl

def handOutRule? (names : List String) (rule : String × Rhs) : StateT TokenTable Option Rule :=
  return { lhs := ← names.idxOf? rule.1, rhs := ← rule.2.mapM (Symbol.handOut? names) }

/-- The numbered form and the table of its terminals, from one pass over the rules and the classes. Nothing comes of it
if a name has no number where it is asked for. -/
def handOut? (d : Draft) : Option (Numbered × TokenTable) := do
  let names := d.rules.keys
  let (rules, used) ← (d.ruleList.mapM (handOutRule? names)).run []
  let table := d.classTerminals.foldl (fun table terminal => (table.store terminal).2) used
  let vocabulary ← table.sizes? d.extensible.entries
  let start ← names.idxOf? d.start
  return ({ rules := rules.toArray, start, names := names.toArray, terminals := (table.map Prod.snd).toArray, vocabulary }, table)

end Draft

/-- A pass over something that uses terminals. The numbers in its result are those that the terminals have in the end,
whatever was met before and is met later. -/
def HandsOut {α : Type} (pass : StateT TokenTable Option α) (uses : List Terminal) (result : List Terminal → α) : Prop :=
  ∀ before later, pass.run (.ofMet before) =
    some (result (before ++ uses ++ later).eraseDups, .ofMet (before ++ uses))

namespace HandsOut

theorem mapM {α β : Type} {pass : α → StateT TokenTable Option β} {uses : α → List Terminal}
    {result : List Terminal → α → β} {items : List α}
    (each : ∀ item ∈ items, HandsOut (pass item) (uses item) fun all => result all item) :
    HandsOut (items.mapM pass) (items.flatMap uses) fun all => items.map (result all) := by
  induction items with
  | nil =>
    intro before later
    rw [List.flatMap_nil, List.append_nil]
    rfl
  | cons item rest ih =>
    intro before later
    rw [List.forall_mem_cons] at each
    have first := each.1 before (rest.flatMap uses ++ later)
    have others := ih each.2 (before ++ uses item) later
    rw [← List.append_assoc] at first
    rw [List.mapM_cons, List.flatMap_cons, ← List.append_assoc before, StateT.run_bind, first]
    simp only [Option.bind_eq_bind, Option.bind_some, StateT.run_bind, others]
    rfl

theorem symbol {names : List String} {symbol : Symbol Terminal String}
    (ruled : ∀ name, symbol = .nonterminal name → name ∈ names) :
    HandsOut (Symbol.handOut? names symbol) symbol.terminal?.toList fun all => Symbol.number names all symbol := by
  intro before later
  cases symbol with
  | terminal terminal =>
    have stored : (Symbol.handOut? names (.terminal terminal)).run (.ofMet before) =
        some (.terminal (TokenTable.store terminal (.ofMet before)).1, (TokenTable.store terminal (.ofMet before)).2) := rfl
    have known : terminal ∈ before ++ [terminal] := List.mem_concat_self
    rw [stored, TokenTable.store_ofMet, ← idxOf_eraseDups_append known later]
    rfl
  | nonterminal name =>
    have place : names.idxOf? name = some (names.idxOf name) := idxOf?_of_mem (ruled name rfl)
    simp [Symbol.handOut?, place, Symbol.number, Symbol.terminal?]

theorem rule {names : List String} {lhs : String} {rhs : Rhs} (named : lhs ∈ names)
    (ruled : ∀ name, .nonterminal name ∈ rhs → name ∈ names) :
    HandsOut (Draft.handOutRule? names (lhs, rhs)) (rhs.filterMap Symbol.terminal?) fun all =>
      ⟨names.idxOf lhs, rhs.map (Symbol.number names all)⟩ := by
  intro before later
  have place : names.idxOf? lhs = some (names.idxOf lhs) := idxOf?_of_mem named
  have each : HandsOut (rhs.mapM (Symbol.handOut? names)) (rhs.flatMap fun symbol => symbol.terminal?.toList) fun all =>
      rhs.map (Symbol.number names all) := by
    apply mapM
    intro other used
    apply symbol
    rintro name rfl
    exact ruled name used
  rw [List.filterMap_eq_flatMap_toList, Draft.handOutRule?]
  simp [place, each before later]

end HandsOut

/-- The pass over a grammar always has a result, and its result is the numbered grammar. -/
theorem Grammar.handOut?_eq (g : Grammar) : g.handOut? = some (g.number, .ofTerminals Token.controls g.terminals) := by
  have rules : HandsOut (g.ruleList.mapM (Draft.handOutRule? g.rules.keys))
      g.usedTerminals fun all => g.ruleList.map fun rule =>
        ⟨g.rules.keys.idxOf rule.1, rule.2.map (Symbol.number g.rules.keys all)⟩ := by
    apply HandsOut.mapM
    rintro ⟨lhs, rhs⟩ known
    apply HandsOut.rule (Draft.HasRule.mem_keys known)
    intro name used
    obtain ⟨other, ruled⟩ := g.ruled known used
    exact ruled.mem_keys
  have table : TokenTable.ofMet (g.usedTerminals ++ g.classTerminals) = .ofTerminals Token.controls g.terminals := by
    rw [TokenTable.ofMet, ← g.terminals_eq]
  have sizes : (TokenTable.ofTerminals Token.controls g.terminals).sizes? g.extensible.entries = some g.number.vocabulary := by
    apply mapM_eq_some_map
    rintro ⟨name, words⟩ listed
    have member := extensible_mem_terminals (OrderedMap.get?_eq_some_iff.mpr listed)
    simp only [TokenTable.token?_ofTerminals, if_pos member]
    rfl
  obtain ⟨_, started⟩ := g.start_ruled
  have start : g.rules.keys.idxOf? g.start = some g.number.start := idxOf?_of_mem started.mem_keys
  have passed := rules [] g.classTerminals
  rw [List.nil_append, ← g.terminals_eq] at passed
  have empty : TokenTable.ofMet [] = [] := rfl
  rw [empty] at passed
  rw [Draft.handOut?]
  simp only [passed, start, Option.bind_eq_bind, Option.bind_some, TokenTable.foldl_store, table, sizes,
    TokenTable.terminals_ofTerminals]
  rfl

end CommandLang
