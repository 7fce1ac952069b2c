import CommandLang.Proofs.Construction
import CommandLang.Proofs.Outline

/-! Grammars that fold into an outline. If by the tables of the outline the end of no rule can be mistaken for another
place, then the states of the grammar clash only over rules that have become one. -/

namespace CommandLang

/-- The symbols of an augmented grammar are folded together so that its rules are rules of an outline. -/
structure Numbered.Folds {τ ν : Type} (g : Numbered) (o : Outline τ ν) (word : Nat → τ) (part : Nat → ν) : Prop where
  rule : ∀ {lhs rhs}, g.augment.HasRule lhs rhs → (part lhs, rhs.map (Symbol.map word part)) ∈ o.rules
  bottom : [none] ∈ o.before (part g.acceptance.lhs)

namespace Numbered

variable {τ ν : Type} [DecidableEq τ] [DecidableEq ν] {o : Outline τ ν} {g : Numbered} {word : Nat → τ} {part : Nat → ν}
  (folds : g.Folds o word part) (sound : o.sound = true)

include folds sound

theorem Folds.rhs_ne_nil {lhs : Nat} {rhs : NumberedSymbols} (known : g.augment.HasRule lhs rhs) : rhs ≠ [] := by
  obtain ⟨x, found, _⟩ := Outline.exists_head_of_surrounds (Outline.surrounds_of_sound sound (folds.rule known))
  rintro rfl
  cases found

/-- In whatever is derived, the tables allow for all neighbours. -/
theorem Folds.isChain_of_derives {a : Nat} {form : NumberedSymbols} (derived : Derives g.augment.HasRule [.nonterminal a] form) :
    (form.map (Symbol.map word part)).IsChain fun x y => o.joint x y = true := by
  induction derived with
  | refl => exact .singleton _
  | tail _ step ih =>
    cases step with
    | intro front back known =>
      rw [List.map_append, List.map_append]
      rw [List.map_append] at ih
      exact Outline.isChain_of_surrounds (Outline.surrounds_of_sound sound (folds.rule known)) ih

theorem Folds.mem_behind {a token : Nat} (follows : g.augment.Follows a token) : word token ∈ o.behind (part a) := by
  obtain ⟨_, front, back, derived⟩ := follows
  have chain := folds.isChain_of_derives sound derived
  rw [List.map_append] at chain
  obtain ⟨joint, _⟩ := List.isChain_cons_cons.mp (List.isChain_append.mp chain).2.1
  simpa [Outline.joint, Outline.starts] using joint

theorem Folds.exists_before {a : Nat} {seen : NumberedSymbols} (leads : g.Leads a seen) :
    ∃ context ∈ o.before (part a), context <+: (seen.map (Symbol.map word part)).map some ++ [none] := by
  induction leads with
  | top => exact ⟨[none], folds.bottom, List.prefix_rfl⟩
  | @used lhs a seen front back _ known ih =>
    obtain ⟨context, listed, begins⟩ := ih
    have image := folds.rule known
    rw [List.map_append, List.map_cons, Symbol.map_nonterminal] at image
    obtain ⟨inner, member, inside⟩ := Outline.exists_before_of_sound sound image listed
    refine ⟨inner, member, inside.trans ?_⟩
    simpa using (List.prefix_append_right_inj (front.reverse.map (some ∘ Symbol.map word part))).mpr begins

/-- The same symbols can stand before two places that are reached by the same symbols. -/
theorem Folds.alike {lhs other : Nat} {front front' rest rest' : NumberedSymbols} (back back' : NumberedSymbols)
    (same : front.reverse ++ rest = front'.reverse ++ rest') (leads : g.Leads lhs rest) (leads' : g.Leads other rest') :
    o.alike ⟨part lhs, (front.map (Symbol.map word part)).reverse, back.map (Symbol.map word part)⟩
      ⟨part other, (front'.map (Symbol.map word part)).reverse, back'.map (Symbol.map word part)⟩ = true := by
  obtain ⟨context, listed, begins⟩ := folds.exists_before sound leads
  obtain ⟨context', listed', begins'⟩ := folds.exists_before sound leads'
  have image := congrArg (List.map (Symbol.map word part)) same
  simp only [List.map_append, List.map_reverse] at image
  have whole : (front.map (Symbol.map word part)).reverse.map some ++ context <+:
      ((front.map (Symbol.map word part)).reverse ++ rest.map (Symbol.map word part)).map some ++ [none] := by
    rw [List.map_append, List.append_assoc]
    exact (List.prefix_append_right_inj _).mpr begins
  have whole' : (front'.map (Symbol.map word part)).reverse.map some ++ context' <+:
      ((front.map (Symbol.map word part)).reverse ++ rest.map (Symbol.map word part)).map some ++ [none] := by
    rw [image, List.map_append, List.append_assoc]
    exact (List.prefix_append_right_inj _).mpr begins'
  have fronts : (front'.map (Symbol.map word part)).reverse <+:
      (front.map (Symbol.map word part)).reverse ++ rest.map (Symbol.map word part) := by
    rw [image]
    exact List.prefix_append ..
  simp only [Outline.alike, Bool.and_eq_true, List.any_eq_true]
  exact ⟨agree_of_begins (List.prefix_append ..) fronts, context, listed, context', listed', agree_of_begins whole whole'⟩

/-- The end of a rule is told from a place that is reached by the same symbols. -/
theorem Folds.tells {lhs other : Nat} {rhs front back rest rest' : NumberedSymbols} (known : g.augment.HasRule lhs rhs)
    (known' : g.augment.HasRule other (front ++ back)) (some : front ≠ []) (same : rhs.reverse ++ rest = front.reverse ++ rest') :
    o.tells ⟨part lhs, (rhs.map (Symbol.map word part)).reverse, []⟩
      ⟨part other, (front.map (Symbol.map word part)).reverse, back.map (Symbol.map word part)⟩ = true := by
  have image := folds.rule known
  have image' := folds.rule known'
  rw [List.map_append] at image'
  refine Outline.tells_of_sound sound image image' (by simpa using some) ?_
  have some' := folds.rhs_ne_nil sound known
  have last := congrArg List.head? same
  rw [List.head?_append_of_ne_nil _ (by simpa using some'), List.head?_append_of_ne_nil _ (by simpa using some),
    List.head?_reverse, List.head?_reverse] at last
  simp [List.getLast?_map, last]

/-- Whatever an item of a closure starts with next, an item of the kernel can start with next. -/
theorem Folds.exists_kernel {kernel : Set Item} {item : Item} (member : g.augment.InClosure kernel item)
    {symbol : Symbol Nat Nat} (next : g.augment.next? item = some symbol) :
    ∃ source ∈ kernel, ∃ expected, g.augment.next? source = some expected ∧
      ∀ t ∈ o.starts (symbol.map word part), t ∈ o.starts (expected.map word part) := by
  induction member generalizing symbol with
  | kernel member => exact ⟨_, member, symbol, next, fun _ start => start⟩
  | @predicted before rule production _ expects known ih =>
    obtain ⟨source, inside, expected, found, starts⟩ := ih expects
    refine ⟨source, inside, expected, found, fun t start => starts t ?_⟩
    obtain ⟨other, ruled, first⟩ := next?_eq_some.mp next
    obtain rfl := Option.some.inj (known.symm.trans ruled)
    obtain ⟨x, head, all⟩ := Outline.exists_head_of_surrounds
      (Outline.surrounds_of_sound sound (folds.rule (Array.mem_of_getElem? known)))
    have first : production.rhs.head? = some symbol := by simpa [List.head?_eq_getElem?] using first
    rw [List.head?_map, first, Option.map_some] at head
    obtain rfl := Option.some.inj head
    exact all t start

variable {items : Set Item} {rule token : Nat} {production : Rule} (canonical : g.augment.Canonical items)
  (complete : ⟨rule, production.rhs.length⟩ ∈ items) (known : g.augment.rules[rule]? = some production)

include canonical complete known

/-- In a state where a rule was seen as a whole, some item has a symbol behind it for whatever an item starts with next. -/
theorem Folds.exists_entered {item : Item} (member : item ∈ items) {symbol : Symbol Nat Nat}
    (next : g.augment.next? item = some symbol) : ∃ source ∈ items, 0 < source.dot ∧ ∃ expected,
      g.augment.next? source = some expected ∧ ∀ t ∈ o.starts (symbol.map word part), t ∈ o.starts (expected.map word part) := by
  have some : 0 < production.rhs.length := List.length_pos_iff.mpr (folds.rhs_ne_nil sound (Array.mem_of_getElem? known))
  cases canonical with
  | start =>
    generalize whole : (⟨rule, production.rhs.length⟩ : Item) = ended at complete
    cases complete with
    | kernel first =>
      obtain ⟨_, none⟩ := Item.mk.inj (whole.trans first)
      exact absurd none (Nat.ne_of_gt some)
    | predicted =>
      obtain ⟨_, none⟩ := Item.mk.inj whole
      exact absurd none (Nat.ne_of_gt some)
  | goto =>
    obtain ⟨source, inside, expected, found, starts⟩ := folds.exists_kernel sound member next
    obtain ⟨before, _, _, rfl⟩ := id inside
    exact ⟨_, .kernel inside, Nat.succ_pos _, expected, found, starts⟩

variable (follows : g.augment.Follows production.lhs token)

include follows

/-- A token that can come behind a rule that was seen as a whole is not expected inside another one. -/
theorem Folds.not_expects {item : Item} (member : item ∈ items) : g.augment.next? item ≠ some (.terminal token) := by
  intro next
  obtain ⟨source, inside, entered, expected, found, starts⟩ := folds.exists_entered sound canonical complete known member next
  obtain ⟨seen, behind⟩ := canonical.exists_seen
  obtain ⟨_, rest, ruled, same, leads⟩ := behind _ complete
  obtain rfl := Option.some.inj (known.symm.trans ruled)
  obtain ⟨other, rest', ruled', same', leads'⟩ := behind source inside
  obtain ⟨_, equal, found⟩ := next?_eq_some.mp found
  obtain rfl := Option.some.inj (ruled'.symm.trans equal)
  rw [List.take_length] at same
  have within := (List.getElem?_eq_some_iff.mp found).1
  have some : other.rhs.take source.dot ≠ [] := by
    rw [← List.length_pos_iff, List.length_take]
    omega
  have split : g.augment.HasRule other.lhs (other.rhs.take source.dot ++ other.rhs.drop source.dot) := by
    rw [List.take_append_drop]
    exact Array.mem_of_getElem? ruled'
  have told := folds.tells sound (Array.mem_of_getElem? known) split some (same.symm.trans same')
  have alike := folds.alike sound [] (other.rhs.drop source.dot) (same.symm.trans same') leads leads'
  rw [Outline.tells, ← List.map_nil (f := Symbol.map word part), alike, List.drop_eq_getElem_cons within] at told
  have start := starts (word token) (by simp [Outline.starts])
  rw [← (List.getElem?_eq_some_iff.mp found).2] at start
  simp only [List.map_cons, Bool.not_true, Bool.false_or, List.all_eq_true, decide_eq_true_eq] at told
  exact told _ start (folds.mem_behind sound follows)

/-- Two rules that were seen as a whole and are reduced on one token have become one. -/
theorem Folds.exists_same {other : Nat} {production' : Rule} (complete' : ⟨other, production'.rhs.length⟩ ∈ items)
    (known' : g.augment.rules[other]? = some production') (follows' : g.augment.Follows production'.lhs token) :
    part production.lhs = part production'.lhs ∧ production.rhs = production'.rhs ∧
      ∃ seen, g.Leads production.lhs seen ∧ g.Leads production'.lhs seen := by
  obtain ⟨seen, behind⟩ := canonical.exists_seen
  obtain ⟨_, rest, ruled, same, leads⟩ := behind _ complete
  obtain rfl := Option.some.inj (known.symm.trans ruled)
  obtain ⟨_, rest', ruled', same', leads'⟩ := behind _ complete'
  obtain rfl := Option.some.inj (known'.symm.trans ruled')
  rw [List.take_length] at same same'
  have split : g.augment.HasRule production'.lhs (production'.rhs ++ []) := by
    rw [List.append_nil]
    exact Array.mem_of_getElem? known'
  have some := folds.rhs_ne_nil sound (Array.mem_of_getElem? known')
  have told := folds.tells sound (Array.mem_of_getElem? known) split some (same.symm.trans same')
  have alike := folds.alike sound [] [] (same.symm.trans same') leads leads'
  have shared : (o.behind (part production.lhs)).all (· ∉ o.behind (part production'.lhs)) = false := by
    rw [List.all_eq_false]
    exact ⟨_, folds.mem_behind sound follows, by simpa using folds.mem_behind sound follows'⟩
  simp only [List.map_nil] at alike
  simp only [List.map_nil, Outline.tells, alike, shared, Bool.not_true, Bool.false_or, Bool.or_false, Bool.and_eq_true,
    decide_eq_true_eq, List.reverse_inj] at told
  obtain ⟨parts, image⟩ := told
  have length : production.rhs.reverse.length = production'.rhs.reverse.length := by
    simpa using congrArg List.length image
  obtain ⟨reversed, rfl⟩ := List.append_inj (same.symm.trans same') length
  exact ⟨parts, List.reverse_inj.mp reversed, rest, leads, leads'⟩

omit canonical complete known follows

section

variable {first second : Move}

omit [DecidableEq τ] [DecidableEq ν] folds sound in
theorem Asks.expected (lawful : g.Lawful) (asks : g.augment.Asks items token first) (other : ∀ rule, first ≠ .reduce rule) :
    ∃ item ∈ items, g.augment.next? item = some (.terminal token) := by
  cases asks with
  | shift member next => exact ⟨_, member, next⟩
  | reduce => exact absurd rfl (other _)
  | accept member => exact ⟨_, member, lawful.next?_eos.mpr (by rw [augment_size])⟩

omit [DecidableEq τ] [DecidableEq ν] folds sound in
theorem Asks.eq_of_ne_reduce (one : g.augment.Asks items token first) (two : g.augment.Asks items token second)
    (other : ∀ rule, first ≠ .reduce rule) (other' : ∀ rule, second ≠ .reduce rule) : first = second := by
  cases one with
  | reduce => exact absurd rfl (other _)
  | shift _ _ passed =>
    cases two with
    | shift => rfl
    | accept => exact absurd rfl passed
    | reduce => exact absurd rfl (other' _)
  | accept =>
    cases two with
    | accept => rfl
    | shift _ _ passed => exact absurd rfl passed
    | reduce => exact absurd rfl (other' _)

include canonical

/-- Where a rule is reduced, nothing but a reduction is asked for. -/
theorem Folds.exists_reduce (lawful : g.Lawful) (reduces : g.augment.Asks items token (.reduce rule))
    (asks : g.augment.Asks items token second) : ∃ other, second = .reduce other := by
  by_contra none
  obtain ⟨item, member, next⟩ := asks.expected lawful fun other same => none ⟨other, same⟩
  cases reduces with
  | reduce complete known follows => exact folds.not_expects sound canonical complete known follows member next

/-- No two rules are reduced if rules that are folded together are the same, or come up behind different symbols. -/
theorem Folds.eq_of_reduce
    (single : ∀ {rule other : Nat} {production : Rule}, g.augment.rules[rule]? = some production →
      g.augment.rules[other]? = some production → rule = other)
    (determined : ∀ {lhs other : Nat} {rhs seen : NumberedSymbols}, g.augment.HasRule lhs rhs → g.augment.HasRule other rhs →
      g.Leads lhs seen → g.Leads other seen → part lhs = part other → lhs = other) {other : Nat}
    (reduces : g.augment.Asks items token (.reduce rule)) (reduces' : g.augment.Asks items token (.reduce other)) :
    rule = other := by
  cases reduces with
  | @reduce _ _ production complete known follows =>
    cases reduces' with
    | @reduce _ _ production' complete' known' follows' =>
      obtain ⟨parts, body, seen, leads, leads'⟩ :=
        folds.exists_same sound canonical complete known follows complete' known' follows'
      have shared : g.augment.HasRule production.lhs production'.rhs := body ▸ Array.mem_of_getElem? known
      have name := determined shared (Array.mem_of_getElem? known') leads leads' parts
      obtain rfl : production = production' := by
        cases production
        cases production'
        exact congr (congrArg Rule.mk name) body
      exact single known known'

end

/-- A grammar is clean if its rules fold into a sound outline, and no two rules with the same right-hand side are folded
together that come up behind the same symbols. -/
theorem Folds.clean (lawful : g.Lawful)
    (single : ∀ {rule other : Nat} {production : Rule}, g.augment.rules[rule]? = some production →
      g.augment.rules[other]? = some production → rule = other)
    (determined : ∀ {lhs other : Nat} {rhs seen : NumberedSymbols}, g.augment.HasRule lhs rhs → g.augment.HasRule other rhs →
      g.Leads lhs seen → g.Leads other seen → part lhs = part other → lhs = other) : g.Clean := by
  intro items canonical clashing
  obtain ⟨token, first, second, one, two, apart⟩ := clashing
  by_cases reduces : ∃ rule, first = .reduce rule
  · obtain ⟨rule, rfl⟩ := reduces
    obtain ⟨other, rfl⟩ := folds.exists_reduce sound canonical lawful one two
    exact apart (congrArg Move.reduce (folds.eq_of_reduce sound canonical single determined one two))
  · have reduces' : ∀ rule, second ≠ .reduce rule := by
      rintro rule rfl
      exact reduces (folds.exists_reduce sound canonical lawful two one)
    exact apart (one.eq_of_ne_reduce two (not_exists.mp reduces) reduces')

end Numbered

/-- The symbols of a draft are folded together so that its rules are rules of an outline, and so is the rule that its start
symbol comes before the end of the input. -/
structure Draft.Folds {τ ν : Type} (d : Draft) (o : Outline τ ν) (word : Terminal → τ) (part : String → ν) (final : τ)
    (top : ν) : Prop where
  rule : ∀ {lhs rhs}, d.HasRule lhs rhs → (part lhs, rhs.map (Symbol.map word part)) ∈ o.rules
  last : (top, [.nonterminal (part d.start), .terminal final]) ∈ o.rules
  bottom : [none] ∈ o.before top

namespace Grammar

variable {τ ν : Type} {o : Outline τ ν} {g : Grammar} {word : Terminal → τ} {part : String → ν} {final : τ} {top : ν}

theorem map_symbolNumber {symbol : Symbol Terminal String} (knows : g.Knows symbol) :
    (g.symbolNumber symbol).map (fun token => ((g.number.terminal? token).map word).getD final)
      (fun a => (g.rules.keys[a]?.map part).getD top) = symbol.map word part := by
  cases symbol with
  | terminal terminal =>
    have named : g.number.terminal? (Token.controls + g.terminals.idxOf terminal) = some terminal :=
      terminal?_number.mpr ⟨knows, rfl⟩
    simp [symbolNumber, Symbol.number, named]
  | nonterminal name => simp [symbolNumber, Symbol.number, List.getElem?_idxOf knows]

theorem number_folds (folds : g.Folds o word part final top) : g.number.Folds o
    (fun token => ((g.number.terminal? token).map word).getD final) (fun a => (g.rules.keys[a]?.map part).getD top) where
  rule := by
    intro lhs rhs known
    rcases Numbered.augment_hasRule.mp known with old | ⟨rfl, rfl⟩
    · obtain ⟨name, source, ruled, rfl, rfl⟩ := number_hasRule.mp old
      have image : (source.map g.symbolNumber).map (Symbol.map (fun token => ((g.number.terminal? token).map word).getD final)
          (fun a => (g.rules.keys[a]?.map part).getD top)) = source.map (Symbol.map word part) := by
        rw [List.map_map, List.map_inj_left]
        exact fun symbol used => map_symbolNumber (knows_of_mem ruled used)
      rw [image, List.getElem?_idxOf ruled.mem_keys]
      exact folds.rule ruled
    · obtain ⟨rhs, ruled⟩ := g.start_ruled
      have last := folds.last
      have begins : g.rules.keys[g.number.start]? = some g.start := List.getElem?_idxOf ruled.mem_keys
      have ends : g.number.terminal? Token.eos = none := rfl
      have outside : g.rules.keys[g.number.names.size]? = none := by simp [number]
      simpa [Numbered.acceptance, begins, ends, outside] using last
  bottom := by
    have outside : g.rules.keys[g.number.acceptance.lhs]? = none := by simp [Numbered.acceptance, number]
    rw [outside]
    exact folds.bottom

theorem number_single (distinct : g.ruleList.Nodup) {rule other : Nat} {production : Rule}
    (known : g.number.augment.rules[rule]? = some production) (known' : g.number.augment.rules[other]? = some production) :
    rule = other := by
  have numbers : (g.ruleList.map fun entry => (⟨g.rules.keys.idxOf entry.1, entry.2.map g.symbolNumber⟩ : Rule)).Nodup := by
    refine List.Nodup.map_on ?_ distinct
    intro entry (ruled : g.HasRule entry.1 entry.2) other _ same
    obtain ⟨names, bodies⟩ := Rule.mk.inj same
    exact Prod.ext ((List.idxOf_inj ruled.mem_keys).mp names)
      (map_symbolNumber_inj (fun _ used => knows_of_mem ruled used) bodies)
  rcases Numbered.augment_getElem?.mp known with old | ⟨rfl, rfl⟩ <;>
    rcases Numbered.augment_getElem?.mp known' with old' | ⟨rfl, same⟩
  · rw [number, List.getElem?_toArray] at old old'
    have inside := (List.getElem?_eq_some_iff.mp old).1
    exact (List.getElem?_inj inside numbers).mp (old.trans old'.symm)
  · exact absurd (same ▸ Array.mem_of_getElem? old) (g.number_lawful.not_hasRule_acceptance _)
  · exact absurd (Array.mem_of_getElem? old') (g.number_lawful.not_hasRule_acceptance _)
  · rfl

/-- The grammar is clean if its rules fold into a sound outline, and no two rules with the same right-hand side are folded
together that come up behind the same symbols. -/
theorem clean_of_folds [DecidableEq τ] [DecidableEq ν] (folds : g.Folds o word part final top) (sound : o.sound = true)
    (distinct : g.ruleList.Nodup)
    (determined : ∀ {lhs other : String} {rhs seen : Rhs}, g.HasRule lhs rhs → g.HasRule other rhs →
      Led g.HasRule g.start lhs seen → Led g.HasRule g.start other seen → part lhs = part other → lhs = other) : g.number.Clean := by
  refine (number_folds folds).clean sound g.number_lawful (number_single distinct) ?_
  intro lhs other rhs seen known known' leads leads' same
  rcases Numbered.augment_hasRule.mp known with old | ⟨rfl, rfl⟩ <;>
    rcases Numbered.augment_hasRule.mp known' with old' | ⟨rfl, ended⟩
  · obtain ⟨name, source, ruled, rfl, rfl⟩ := number_hasRule.mp old
    obtain ⟨name', source', ruled', rfl, body⟩ := number_hasRule.mp old'
    obtain ⟨one, seen, equal, _, rfl, led⟩ := exists_led leads (idxOf_ne_acceptance ruled.mem_keys)
    obtain ⟨two, seen', equal', _, shared, led'⟩ := exists_led leads' (idxOf_ne_acceptance ruled'.mem_keys)
    obtain rfl := (List.idxOf_inj ruled.mem_keys).mp equal
    obtain rfl := (List.idxOf_inj ruled'.mem_keys).mp equal'
    obtain rfl := map_symbolNumber_inj (fun _ used => knows_of_mem ruled used) body
    obtain rfl := map_symbolNumber_inj (knows_of_led led) shared
    rw [List.getElem?_idxOf ruled.mem_keys, List.getElem?_idxOf ruled'.mem_keys] at same
    rw [determined ruled ruled' led led' (by simpa using same)]
  · exact absurd (ended ▸ old) (g.number_lawful.not_hasRule_acceptance _)
  · exact absurd old' (g.number_lawful.not_hasRule_acceptance _)
  · rfl

end Grammar

end CommandLang
