import CommandLang.Proofs.Interning
import Mathlib.Data.Finset.Card

/-! Numbering as a renaming. Numbers of nonterminals, terminals and rules follow the declarations that a grammar was
built from, and reading the names back for the numbers gives the declared rules. -/

namespace CommandLang

theorem mapM_map_eq_self {α β : Type} {write : α → β} {read : β → Option α} {items : List α}
    (each : ∀ item ∈ items, read (write item) = some item) : (items.map write).mapM read = some items := by
  rw [List.mapM_map]
  exact (mapM_eq_some_map each).trans (congrArg some (List.map_id' _))

section FirstPlaces

variable {α : Type} [DecidableEq α]

theorem idxOf_eraseDups {front back : List α} {a : α} (fresh : a ∉ front) :
    (front ++ a :: back).eraseDups.idxOf a = front.eraseDups.length := by
  have first : ((a :: back).removeAll front).eraseDups.idxOf a = 0 := by
    simp [List.removeAll, fresh, List.eraseDups_cons]
  rw [List.eraseDups_append, List.idxOf_append_of_notMem (by simpa using fresh), first, Nat.add_zero]

private theorem idxOf_eraseDups_lt {items : List α} {a b : α} (member : b ∈ items) (before : items.idxOf a < items.idxOf b) :
    items.eraseDups.idxOf a < items.eraseDups.idxOf b := by
  obtain ⟨front, back, rfl, fresh⟩ := List.eq_append_cons_of_mem member
  rw [List.idxOf_append_of_notMem fresh, List.idxOf_cons_self, Nat.add_zero] at before
  have earlier : a ∈ front := by
    by_contra absent
    rw [List.idxOf_append_of_notMem absent] at before
    omega
  rw [idxOf_eraseDups fresh, idxOf_eraseDups_append earlier]
  exact List.idxOf_lt_length_of_mem (by simpa using earlier)

theorem idxOf_eraseDups_lt_iff {items : List α} {a b : α} (first : a ∈ items) (second : b ∈ items) :
    items.eraseDups.idxOf a < items.eraseDups.idxOf b ↔ items.idxOf a < items.idxOf b := by
  constructor
  · intro before
    by_contra after
    rcases Nat.lt_or_eq_of_le (Nat.le_of_not_lt after) with other | same
    · exact Nat.lt_asymm before (idxOf_eraseDups_lt first other)
    · rw [(List.idxOf_inj second).mp same] at before
      exact Nat.lt_irrefl _ before
  · exact idxOf_eraseDups_lt second

theorem card_toFinset_eq (items : List α) : items.toFinset.card = items.eraseDups.length := by
  rw [← List.toFinset_card_of_nodup (nodup_eraseDups items)]
  congr 1
  ext
  simp

end FirstPlaces

namespace Numbered

variable (g : Numbered)

def symbol? : Symbol Nat Nat → Option (Symbol Terminal String)
  | .terminal token => (g.terminal? token).map .terminal
  | .nonterminal number => g.names[number]?.map .nonterminal

def namedRule? (rule : Rule) : Option (String × Rhs) :=
  return (← g.names[rule.lhs]?, ← rule.rhs.mapM g.symbol?)

end Numbered

/-- Ranges that follow each other from `first` to `last`, none of them empty. -/
def Consecutive : Nat → List (Nat × Nat) → Nat → Prop
  | first, [], last => first = last
  | first, (start, after) :: rest, last => start = first ∧ start < after ∧ Consecutive after rest last

theorem consecutive_range' {bound : Nat → Nat} (start count : Nat)
    (rising : ∀ i, start ≤ i → i < start + count → bound i < bound (i + 1)) :
    Consecutive (bound start) ((List.range' start count).map fun i => (bound i, bound (i + 1))) (bound (start + count)) := by
  induction count generalizing start with
  | zero => rfl
  | succ count ih =>
    have later := ih (start + 1) fun i above below => rising i (by omega) (by omega)
    rw [Nat.add_right_comm, Nat.add_assoc] at later
    exact ⟨rfl, rising start (by omega) (by omega), later⟩

namespace Draft

variable {d : Draft}

def rulesBefore (d : Draft) (count : Nat) : Nat := (d.rules.values.take count).flatten.length

theorem ruleRanges_getElem? {number first after : Nat} (range : d.ruleRanges[number]? = some (first, after)) :
    first = d.rulesBefore number ∧ after = d.rulesBefore (number + 1) := by
  obtain ⟨inside, equal⟩ := List.getElem?_eq_some_iff.mp range
  simp only [ruleRanges, List.getElem_map, List.getElem_range, Prod.mk.injEq] at equal
  exact ⟨equal.1.symm, equal.2.symm⟩

theorem rulesBefore_mono : Monotone d.rulesBefore := by
  intro few many less
  obtain ⟨more, equal⟩ := List.take_prefix_take_left (l := d.rules.values) less
  rw [rulesBefore, rulesBefore, ← equal, List.flatten_append, List.length_append]
  exact Nat.le_add_right _ _

theorem rulesBefore_lt {number : Nat} (inside : number < d.rules.values.length)
    (ruled : ∀ productions ∈ d.rules.values, productions ≠ []) : d.rulesBefore number < d.rulesBefore (number + 1) := by
  have some := List.length_pos_iff.mpr (ruled _ (List.getElem_mem inside))
  rw [rulesBefore, rulesBefore, List.take_succ_eq_append_getElem inside, List.flatten_append, List.length_append,
    List.flatten_singleton]
  omega

theorem rulesBefore_all : d.rulesBefore d.rules.values.length = d.ruleList.length := by
  rw [rulesBefore, List.take_length, ruleList, OrderedMap.values, List.length_flatten, List.length_flatMap, List.map_map]
  simp [Function.comp_def]

theorem consecutive_ruleRanges (ruled : ∀ productions ∈ d.rules.values, productions ≠ []) :
    Consecutive 0 d.ruleRanges d.ruleList.length := by
  have rising : ∀ i, 0 ≤ i → i < 0 + d.rules.values.length → d.rulesBefore i < d.rulesBefore (i + 1) := fun i _ below =>
    rulesBefore_lt (by omega) ruled
  have ranges := consecutive_range' 0 d.rules.values.length rising
  rwa [Nat.zero_add, rulesBefore_all, ← List.range_eq_range'] at ranges

theorem rulesBefore_le_and_lt {rule : Nat} {lhs : String} {rhs : Rhs} (listed : d.ruleList[rule]? = some (lhs, rhs)) :
    d.rulesBefore (d.rules.keys.idxOf lhs) ≤ rule ∧ rule < d.rulesBefore (d.rules.keys.idxOf lhs + 1) := by
  rw [ruleList] at listed
  simp only [rulesBefore, OrderedMap.keys, OrderedMap.values]
  have distinct := d.rules.nodup_keys
  generalize d.rules.entries = entries at listed distinct
  induction entries generalizing rule with
  | nil => cases listed
  | cons entry rest ih =>
    obtain ⟨name, productions⟩ := entry
    rw [List.flatMap_cons, List.getElem?_append, List.length_map] at listed
    rw [List.map_cons, List.nodup_cons] at distinct
    split at listed
    next here =>
      obtain ⟨_, _, same⟩ := List.mem_map.mp (List.mem_of_getElem? listed)
      cases same
      simpa using here
    next behind =>
      obtain ⟨below, above⟩ := ih listed distinct.2
      obtain ⟨⟨other, _⟩, member, inside⟩ := List.mem_flatMap.mp (List.mem_of_getElem? listed)
      have key : lhs ∈ rest.map Prod.fst := by
        obtain ⟨_, _, same⟩ := List.mem_map.mp inside
        cases same
        exact List.mem_map_of_mem member
      have apart : name ≠ lhs := fun same => distinct.1 (same ▸ key)
      rw [List.map_cons, List.map_cons, List.idxOf_cons_ne _ apart]
      simp only [Nat.succ_eq_add_one, List.take_succ_cons, List.flatten_cons, List.length_append]
      omega

theorem ruleRanges_iff {number first after : Nat} (range : d.ruleRanges[number]? = some (first, after)) {rule : Nat}
    {lhs : String} {rhs : Rhs} (listed : d.ruleList[rule]? = some (lhs, rhs)) :
    d.rules.keys.idxOf lhs = number ↔ first ≤ rule ∧ rule < after := by
  obtain ⟨rfl, rfl⟩ := ruleRanges_getElem? range
  obtain ⟨below, above⟩ := rulesBefore_le_and_lt listed
  constructor
  · rintro rfl
    exact ⟨below, above⟩
  · rintro ⟨atLeast, atMost⟩
    rcases Nat.lt_trichotomy (d.rules.keys.idxOf lhs) number with less | same | more
    · have ordered : d.rulesBefore (d.rules.keys.idxOf lhs + 1) ≤ d.rulesBefore number := rulesBefore_mono less
      omega
    · exact same
    · have ordered : d.rulesBefore (number + 1) ≤ d.rulesBefore (d.rules.keys.idxOf lhs) := rulesBefore_mono more
      omega

end Draft

namespace Grammar

variable {g : Grammar}

theorem names_number {name : String} (member : name ∈ g.rules.keys) :
    g.number.names[g.rules.keys.idxOf name]? = some name := by
  rw [number, List.getElem?_toArray, List.getElem?_idxOf member]

theorem symbol?_number {lhs : String} {rhs : Rhs} (known : g.HasRule lhs rhs) {symbol : Symbol Terminal String}
    (used : symbol ∈ rhs) : g.number.symbol? (g.symbolNumber symbol) = some symbol := by
  cases symbol with
  | terminal terminal =>
    have member : terminal ∈ g.terminals := g.mem_terminals.mpr (Or.inl ⟨lhs, rhs, known, used⟩)
    have found := terminal?_number.mpr ⟨member, rfl⟩
    rw [symbolNumber, Symbol.number, Numbered.symbol?, found]
    rfl
  | nonterminal name =>
    obtain ⟨_, ruled⟩ := g.ruled known used
    rw [symbolNumber, Symbol.number, Numbered.symbol?, names_number ruled.mem_keys]
    rfl

theorem namedRules_number : g.number.rules.toList.mapM g.number.namedRule? = some g.ruleList := by
  have each : ∀ rule ∈ g.ruleList,
      g.number.namedRule? ⟨g.rules.keys.idxOf rule.1, rule.2.map g.symbolNumber⟩ = some rule := by
    rintro ⟨lhs, rhs⟩ known
    have symbols : (rhs.map g.symbolNumber).mapM g.number.symbol? = some rhs := by
      apply mapM_map_eq_self
      intro symbol used
      exact symbol?_number known used
    simp only [Numbered.namedRule?, names_number (Draft.HasRule.mem_keys known), symbols, Option.bind_eq_bind, Option.bind_some]
    rfl
  exact mapM_map_eq_self each

theorem exists_terminal?_number_iff {token : Nat} : (∃ terminal, g.number.terminal? token = some terminal) ↔
    Token.controls ≤ token ∧ token < Token.controls + g.terminals.length := by
  rw [Numbered.terminal?, number]
  split
  next below => simp [below]
  next above => simp [← Option.isSome_iff_exists]; omega

theorem lt_iff_of_terminal?_number {met : List Terminal} (all : g.terminals = met.eraseDups) {token other : Nat}
    {terminal next : Terminal} (first : g.number.terminal? token = some terminal)
    (second : g.number.terminal? other = some next) : token < other ↔ met.idxOf terminal < met.idxOf next := by
  obtain ⟨member, number⟩ := terminal?_number.mp first
  obtain ⟨member', number'⟩ := terminal?_number.mp second
  obtain rfl := Symbol.terminal.inj number
  obtain rfl := Symbol.terminal.inj number'
  rw [all, List.mem_eraseDups] at member member'
  rw [all, Nat.add_lt_add_iff_left, idxOf_eraseDups_lt_iff member member']

/-- What the numbers of a grammar are, by the declarations that it was built from. -/
structure Renames (g : Grammar) (start : String) (declared : Declarations) : Prop where
  /-- One pass that hands out the numbers finds every name that it looks for. -/
  handedOut : (declared.draft start).handOut? = some (g.number, .ofMet declared.met)
  names : g.number.names.toList = declared.names
  started : g.number.names[g.number.start]? = some start
  rules : g.ruleList = declared.rules
  /-- The names behind the numbers are those of the rules. -/
  readBack : g.number.rules.toList.mapM g.number.namedRule? = some g.ruleList
  /-- Different terminals have different numbers, and these leave no gap. -/
  numbered : ∀ token, (∃ terminal, g.number.terminal? token = some terminal) ↔
    Token.controls ≤ token ∧ token < Token.controls + declared.met.toFinset.card
  named : ∀ token terminal, g.number.terminal? token = some terminal → terminal ∈ declared.met
  once : ∀ terminal ∈ declared.met, ∃! token, g.number.terminal? token = some terminal
  /-- Numbers are in the order in which terminals come first. -/
  ordered : ∀ token other terminal next, g.number.terminal? token = some terminal → g.number.terminal? other = some next →
    (token < other ↔ declared.met.idxOf terminal < declared.met.idxOf next)
  /-- Each nonterminal has one range of rules, and the ranges divide all rules in order. -/
  ranged : g.ruleRanges.length = declared.names.length
  divided : Consecutive 0 g.ruleRanges g.number.rules.size
  owned : ∀ number first after, g.ruleRanges[number]? = some (first, after) →
    ∀ (place : Nat) (rule : Rule), g.number.rules[place]? = some rule → (rule.lhs = number ↔ first ≤ place ∧ place < after)
  listed : g.number.vocabulary.map (fun entry => g.number.terminal? entry.1) = declared.values.map (some <| .extensible ·)
  sizes : ∀ token name, g.number.terminal? token = some (.extensible name) →
    ∃ vocabulary, declared.vocabulary? name = some vocabulary ∧ g.number.vocabularySize token = vocabulary.length

theorem exists_listed_of_number {place : Nat} {rule : Rule} (found : g.number.rules[place]? = some rule) :
    ∃ lhs rhs, g.ruleList[place]? = some (lhs, rhs) ∧ rule.lhs = g.rules.keys.idxOf lhs := by
  rw [number, List.getElem?_toArray, List.getElem?_map, Option.map_eq_some_iff] at found
  obtain ⟨⟨lhs, rhs⟩, listed, rfl⟩ := found
  exact ⟨lhs, rhs, listed, rfl⟩

theorem extensible_of_mem_terminals {name : String} (member : .extensible name ∈ g.terminals) :
    ∃ vocabulary, g.extensible.get? name = some vocabulary := by
  rcases g.mem_terminals.mp member with ⟨lhs, rhs, known, used⟩ | ⟨_, declared, same⟩ | ⟨_, _, other⟩
  · exact extensible_declared known used
  · cases same
    exact OrderedMap.get?_of_contains (OrderedMap.contains_iff.mpr declared)
  · cases other

theorem terminals_of_vocabulary_number : g.number.vocabulary.map (fun entry => g.number.terminal? entry.1) =
    g.extensible.keys.map (some <| .extensible ·) := by
  have sizes : g.number.vocabulary = g.extensible.entries.map fun entry =>
      (Token.controls + g.terminals.idxOf (.extensible entry.1), entry.2.length) := rfl
  rw [sizes, OrderedMap.keys, List.map_map, List.map_map]
  apply List.map_congr_left
  rintro ⟨name, words⟩ listed
  have member := extensible_mem_terminals (OrderedMap.get?_eq_some_iff.mpr listed)
  exact terminal?_number.mpr ⟨member, rfl⟩

/-- Numbering is a renaming: of a grammar that was built from declarations the numbers follow these, and nothing else
is changed. -/
theorem number_renames {start : String} {declared : Declarations} (built : (declared.draft start).build = .ok g) :
    g.Renames start declared := by
  have same := Draft.toDraft_of_build built
  have names : g.rules.keys = declared.names := same ▸ Declarations.keys_rules
  have terminals : g.terminals = declared.met.eraseDups := same ▸ Declarations.terminals_draft
  have classes : g.extensible.keys = declared.values := same ▸ Declarations.keys_extensible
  have vocabularies : ∀ name, g.extensible.get? name = declared.vocabulary? name := fun name =>
    same ▸ Declarations.get?_extensible name
  exact {
    handedOut := by rw [← same, handOut?_eq, TokenTable.ofMet, ← terminals]
    names := names
    started := by
      obtain ⟨_, ruled⟩ := g.start_ruled
      have first : g.start = start := same ▸ Declarations.start_draft
      exact first ▸ names_number ruled.mem_keys
    rules := same ▸ Declarations.ruleList_draft
    readBack := namedRules_number
    numbered := fun token => by rw [card_toFinset_eq, ← terminals, exists_terminal?_number_iff]
    named := fun token terminal found => by
      have member := (terminal?_number.mp found).1
      rwa [terminals, List.mem_eraseDups] at member
    once := fun terminal met => by
      have member : terminal ∈ g.terminals := by rwa [terminals, List.mem_eraseDups]
      exact ⟨_, terminal?_number.mpr ⟨member, rfl⟩, fun other found => terminal?_number_inj found (terminal?_number.mpr ⟨member, rfl⟩)⟩
    ordered := fun token other terminal next => lt_iff_of_terminal?_number terminals
    ranged := by
      rw [Draft.ruleRanges, List.length_map, List.length_range, ← names, OrderedMap.keys, OrderedMap.values, List.length_map,
        List.length_map]
    divided := by
      have size : g.number.rules.size = g.ruleList.length := by simp [number]
      rw [size]
      apply Draft.consecutive_ruleRanges
      intro productions member
      rw [same] at member
      exact Declarations.values_ne_nil member
    owned := fun number first after range place rule found => by
      obtain ⟨lhs, rhs, listed, left⟩ := exists_listed_of_number found
      rw [left]
      exact Draft.ruleRanges_iff range listed
    listed := classes ▸ terminals_of_vocabulary_number
    sizes := fun token name found => by
      obtain ⟨vocabulary, known⟩ := extensible_of_mem_terminals (terminal?_number.mp found).1
      refine ⟨vocabulary, vocabularies name ▸ known, ?_⟩
      rw [vocabularySize_number found, known]
      rfl
  }

def interleaved : Declarations := [
  .copy "page" ⟨"<", ">", []⟩,
  .rule "S" [.nonterminal "L", .word "send"],
  .rule "L" [.valueOf "name", .word "to"],
  .extensible "room" ["hall"],
  .rule "S" [.word "stop"],
  .extensible "name" ["anna"],
  .rule "S" [.nonterminal "L", .word "send"],
  .rule "L" [],
  .extensible "name" ["anna", "ben"]]

def interleavedNumbers : Numbered where
  rules := #[⟨0, [.nonterminal 1, .terminal 3]⟩, ⟨0, [.terminal 4]⟩, ⟨1, [.terminal 5, .terminal 6]⟩, ⟨1, []⟩]
  start := 0
  names := #["S", "L"]
  terminals := #[.fixed "send", .fixed "stop", .extensible "name", .fixed "to", .extensible "room", .copy "page"]
  vocabulary := [(7, 1), (5, 2)]

theorem number_renames_interleaved :
    ∃ g, (interleaved.draft "S").build = .ok g ∧ g.Renames "S" interleaved ∧ g.number = interleavedNumbers := by
  have checked : (interleaved.draft "S").build.toOption.map number = some interleavedNumbers := by decide +kernel
  obtain ⟨g, found, numbers⟩ := Option.map_eq_some_iff.mp checked
  have built := eq_ok_of_toOption found
  exact ⟨g, built, number_renames built, numbers⟩

end Grammar

end CommandLang
