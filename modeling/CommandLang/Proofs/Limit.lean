import CommandLang.Proofs.Machine
import Mathlib.Data.List.Nodup
import Mathlib.Data.List.Perm.Subperm

/-! How many reductions a token can cause. Reductions that end never repeat a stack. What they build above the part
of the stack that they leave alone has every state once, because between two equal states they would
build the same again and again. So only so many stacks can come up, and the limit of a run is no restriction. -/

namespace CommandLang

/-- One reduction on a token, seen on the stack. It leaves something of the stack. -/
inductive Automaton.Reduces (a : Automaton) (token : Nat) : List Nat → List Nat → Prop where
  | intro {stack : List Nat} {rule next : Nat} {production : Rule}
      (acts : a.action (stack.headD 0) token = .reduce rule) (known : a.grammar.rules[rule]? = some production)
      (high : production.rhs.length < stack.length)
      (leads : a.goto ((stack.drop production.rhs.length).headD 0) production.lhs = some next) :
      Reduces a token stack (next :: stack.drop production.rhs.length)

def Automaton.Halts (a : Automaton) (token : Nat) : List Nat → Prop :=
  Acc fun after before => a.Reduces token before after

private theorem headD_append {stack more : List Nat} (some : 0 < stack.length) :
    (stack ++ more).headD 0 = stack.headD 0 := by
  cases stack with
  | nil => cases some
  | cons => rfl

private theorem not_acc_of_recurring {α : Type} {r : α → α → Prop} (holds : α → Prop)
    (again : ∀ x, holds x → ∃ y, holds y ∧ Relation.TransGen r x y) {x : α} (start : holds x) :
    ¬ Acc (fun y x => r x y) x := by
  intro ends
  have far := ends.transGen
  clear ends
  induction far with
  | intro x _ ih =>
    obtain ⟨y, recurs, path⟩ := again x start
    exact ih y (Relation.transGen_swap.mpr path) recurs

namespace Automaton.Reduces

variable {a : Automaton} {token : Nat} {before after more : List Nat}

theorem unique {other : List Nat} (first : a.Reduces token before after) (second : a.Reduces token before other) :
    after = other := by
  cases first with
  | intro acts known _ leads =>
    cases second with
    | intro acts' known' _ leads' =>
      obtain rfl := Action.reduce.inj (acts.symm.trans acts')
      obtain rfl := Option.some.inj (known.symm.trans known')
      rw [Option.some.inj (leads.symm.trans leads')]

theorem append (reduces : a.Reduces token before after) (more : List Nat) :
    a.Reduces token (before ++ more) (after ++ more) := by
  cases reduces with
  | @intro rule next production acts known high leads =>
    have rest : (before ++ more).drop production.rhs.length = before.drop production.rhs.length ++ more :=
      List.drop_append_of_le_length (Nat.le_of_lt high)
    have left : 0 < (before.drop production.rhs.length).length := by
      rw [List.length_drop]
      omega
    rw [List.cons_append, ← rest]
    refine .intro ?_ known ?_ ?_
    · rw [headD_append (Nat.zero_lt_of_lt high)]
      exact acts
    · rw [List.length_append]
      omega
    · rw [rest, headD_append left]
      exact leads

/-- A reduction within the upper part of a stack is a reduction of this part, and any other leaves less than the
lower part. -/
theorem split (upper : List Nat) {lower : List Nat} (some : 0 < upper.length)
    (reduces : a.Reduces token (upper ++ lower) after) :
    (∃ next arity, arity < upper.length ∧ after = next :: upper.drop arity ++ lower ∧
      ∀ part rest, upper = part ++ rest → arity < part.length → a.Reduces token part (next :: part.drop arity)) ∨
    ∃ next rest, after = next :: rest ∧ rest.length ≤ lower.length := by
  cases reduces with
  | @intro rule next production acts known high leads =>
    by_cases within : production.rhs.length < upper.length
    · refine Or.inl ⟨next, production.rhs.length, within, ?_, ?_⟩
      · rw [List.cons_append, List.drop_append_of_le_length (Nat.le_of_lt within)]
      · rintro part rest rfl enough
        rw [List.append_assoc] at acts leads
        refine .intro ?_ known enough ?_
        · rwa [headD_append (Nat.zero_lt_of_lt enough)] at acts
        · rw [List.drop_append_of_le_length (Nat.le_of_lt enough), headD_append] at leads
          · exact leads
          · rw [List.length_drop]
            omega
    · refine Or.inr ⟨next, _, rfl, ?_⟩
      rw [List.length_drop, List.length_append]
      omega

end Automaton.Reduces

namespace Automaton.Halts

variable {a : Automaton} {token : Nat} {stack : List Nat}

theorem of_path {before after : List Nat} (halts : a.Halts token before)
    (path : Relation.ReflTransGen (a.Reduces token) before after) : a.Halts token after := by
  induction path with
  | refl => exact halts
  | tail _ step ih => exact ih.inv step

theorem not_cyclic (halts : a.Halts token stack) : ¬ Relation.TransGen (a.Reduces token) stack stack := by
  intro cycle
  refine not_acc_of_recurring (· = stack) ?_ rfl halts
  rintro _ rfl
  exact ⟨_, rfl, cycle⟩

/-- A state that builds itself again does so for ever. -/
theorem not_growing {state : Nat} {above : List Nat}
    (growth : Relation.ReflTransGen (a.Reduces token) [state] (state :: above ++ [state])) (below : List Nat) :
    ¬ a.Halts token (state :: below) := by
  have moved : Relation.TransGen (a.Reduces token) [state] (state :: above ++ [state]) := by
    rcases Relation.reflTransGen_iff_eq_or_transGen.mp growth with same | moved
    · simp at same
    · exact moved
  have shifted : ∀ {before after : List Nat}, Relation.TransGen (a.Reduces token) before after → ∀ more,
      Relation.TransGen (a.Reduces token) (before ++ more) (after ++ more) := by
    intro before after path more
    induction path with
    | single step => exact .single (step.append more)
    | tail _ step ih => exact ih.tail (step.append more)
  refine not_acc_of_recurring (fun stack => ∃ below, stack = state :: below) ?_ ⟨below, rfl⟩
  rintro _ ⟨below, rfl⟩
  exact ⟨_, ⟨above ++ [state] ++ below, rfl⟩, shifted moved below⟩

end Automaton.Halts

/-- Every state of a stack has built what stands above it. -/
def Automaton.Grown (a : Automaton) (token : Nat) (upper : List Nat) : Prop :=
  ∀ above state below, upper = above ++ state :: below →
    Relation.ReflTransGen (a.Reduces token) [state] (above ++ [state])

namespace Automaton

variable {a : Automaton} {token : Nat}

private theorem grown_singleton (a : Automaton) (token state : Nat) : a.Grown token [state] := by
  intro above other below whole
  cases above with
  | nil =>
    obtain ⟨rfl, _⟩ := List.cons.inj whole
    exact .refl
  | cons => simp at whole

private theorem Grown.reduced {upper : List Nat} {next arity : Nat} (grown : a.Grown token upper)
    (within : arity < upper.length)
    (reduces : ∀ part rest, upper = part ++ rest → arity < part.length → a.Reduces token part (next :: part.drop arity)) :
    a.Grown token (next :: upper.drop arity) := by
  intro above state below whole
  cases above with
  | nil =>
    obtain ⟨rfl, _⟩ := List.cons.inj whole
    exact .refl
  | cons first above =>
    obtain ⟨rfl, rest⟩ := List.cons.inj whole
    have taken : (upper.take arity).length = arity := List.length_take_of_le (Nat.le_of_lt within)
    have cut : upper = (upper.take arity ++ above) ++ state :: below := by
      rw [List.append_assoc]
      exact (List.take_append_drop arity upper).symm.trans (congrArg (upper.take arity ++ ·) rest)
    have step := reduces (upper.take arity ++ above ++ [state]) below (by simpa using cut) (by simp [taken])
    have left : (upper.take arity ++ above ++ [state]).drop arity = above ++ [state] := by
      rw [List.append_assoc, List.drop_left' taken]
    rw [left] at step
    exact (grown _ state below cut).tail step

/-- The stacks of reductions that end: a part of the first stack, and on it what was built, without repetitions. -/
private theorem exists_grown {start stack : List Nat} (halts : a.Halts token start) (some : 0 < start.length)
    (path : Relation.ReflTransGen (a.Reduces token) start stack) :
    ∃ upper lower, stack = upper ++ lower ∧ 0 < upper.length ∧ lower.length < start.length ∧
      a.Grown token upper ∧ upper.Nodup := by
  induction path with
  | refl =>
    cases start with
    | nil => cases some
    | cons state below => exact ⟨[state], below, rfl, by simp, by simp, grown_singleton a token state, by simp⟩
  | @tail before after path step ih =>
    obtain ⟨upper, lower, rfl, filled, fewer, grown, distinct⟩ := ih
    rcases step.split upper filled with ⟨next, arity, within, rfl, reduces⟩ | ⟨next, rest, rfl, short⟩
    · have grown' := grown.reduced within reduces
      refine ⟨next :: upper.drop arity, lower, by simp, by simp, fewer, grown', List.nodup_cons.mpr ⟨?_, ?_⟩⟩
      · intro again
        obtain ⟨above, below, whole⟩ := List.append_of_mem again
        have growth := grown' (next :: above) next below (by rw [whole]; rfl)
        exact Halts.not_growing growth _ (halts.of_path (path.tail step))
      · exact distinct.sublist (List.drop_sublist arity upper)
    · exact ⟨[next], rest, rfl, by simp, Nat.lt_of_le_of_lt short fewer, grown_singleton a token next, by simp⟩

private theorem Reduces.inside {g : Numbered} {before after : List Nat} (reduces : a.Reduces token before after)
    (table : a.Tabulates g) (all : ∀ state ∈ before, state < a.stateCount) : ∀ state ∈ after, state < a.stateCount := by
  cases reduces with
  | @intro rule next production acts known high leads =>
    have front : (before.drop production.rhs.length).headD 0 < a.stateCount := by
      cases left : before.drop production.rhs.length with
      | nil => exact table.zero_lt
      | cons first rest => exact all first (List.mem_of_mem_drop (left ▸ List.mem_cons_self ..))
    intro state member
    rcases List.mem_cons.mp member with rfl | later
    · exact ((table.goto front).mp leads).1
    · exact all state (List.mem_of_mem_drop later)

private theorem small_of_path {g : Numbered} {start stack : List Nat} (table : a.Tabulates g)
    (all : ∀ state ∈ start, state < a.stateCount) (some : 0 < start.length) (halts : a.Halts token start)
    (path : Relation.ReflTransGen (a.Reduces token) start stack) :
    stack.length ≤ start.length + a.stateCount ∧ ∀ state ∈ stack, state < a.stateCount := by
  have inside : ∀ state ∈ stack, state < a.stateCount := by
    clear halts
    induction path with
    | refl => exact all
    | tail _ step ih => exact step.inside table ih
  obtain ⟨upper, lower, rfl, _, fewer, _, distinct⟩ := exists_grown halts some path
  have most : upper.length ≤ a.stateCount := by
    have subset : upper ⊆ List.range a.stateCount := fun state member =>
      List.mem_range.mpr (inside state (List.mem_append.mpr (Or.inl member)))
    simpa using (List.subperm_of_subset distinct subset).length_le
  refine ⟨?_, inside⟩
  rw [List.length_append]
  omega

end Automaton

private def stackCode (count : Nat) : List Nat → Nat
  | [] => 0
  | state :: rest => state + 1 + (count + 1) * stackCode count rest

private theorem stackCode_lt {count : Nat} {stack : List Nat} (all : ∀ state ∈ stack, state < count) :
    stackCode count stack < (count + 1) ^ stack.length := by
  induction stack with
  | nil => simp [stackCode]
  | cons state rest ih =>
    have here := all state (List.mem_cons_self ..)
    have later := ih fun other member => all other (List.mem_cons_of_mem _ member)
    have grown := Nat.mul_le_mul_left (count + 1) (Nat.succ_le_of_lt later)
    rw [stackCode, List.length_cons, Nat.pow_succ, Nat.mul_comm (_ ^ _)]
    rw [Nat.succ_eq_add_one, Nat.mul_add] at grown
    omega

private theorem stackCode_inj {count : Nat} {stack other : List Nat} (all : ∀ state ∈ stack, state < count)
    (all' : ∀ state ∈ other, state < count) (same : stackCode count stack = stackCode count other) : stack = other := by
  induction stack generalizing other with
  | nil =>
    cases other with
    | nil => rfl
    | cons =>
      rw [stackCode, stackCode] at same
      omega
  | cons state rest ih =>
    cases other with
    | nil =>
      rw [stackCode, stackCode] at same
      omega
    | cons first more =>
      have here : state + 1 < count + 1 := Nat.succ_lt_succ (all state (List.mem_cons_self ..))
      have there : first + 1 < count + 1 := Nat.succ_lt_succ (all' first (List.mem_cons_self ..))
      rw [stackCode, stackCode] at same
      have heads := congrArg (· % (count + 1)) same
      simp only [Nat.add_mul_mod_self_left, Nat.mod_eq_of_lt here, Nat.mod_eq_of_lt there] at heads
      obtain rfl := Nat.succ.inj heads
      have tails := Nat.eq_of_mul_eq_mul_left (Nat.succ_pos count) (Nat.add_left_cancel same)
      rw [ih (fun other member => all other (List.mem_cons_of_mem _ member))
        (fun other member => all' other (List.mem_cons_of_mem _ member)) tails]

private theorem length_le_of_small {count height : Nat} {visited : List (List Nat)} (distinct : visited.Nodup)
    (small : ∀ stack ∈ visited, stack.length ≤ height ∧ ∀ state ∈ stack, state < count) :
    visited.length ≤ (count + 1) ^ height := by
  have codes : (visited.map (stackCode count)).Nodup := by
    refine List.Nodup.map_on ?_ distinct
    intro stack member other member' same
    exact stackCode_inj (small stack member).2 (small other member').2 same
  have subset : visited.map (stackCode count) ⊆ List.range ((count + 1) ^ height) := by
    intro code inside
    obtain ⟨stack, member, rfl⟩ := List.mem_map.mp inside
    obtain ⟨low, all⟩ := small stack member
    exact List.mem_range.mpr (Nat.lt_of_lt_of_le (stackCode_lt all) (Nat.pow_le_pow_right (Nat.succ_pos count) low))
  simpa using (List.subperm_of_subset codes subset).length_le

namespace Automaton

variable {a : Automaton} {g : Numbered} {c d : Config} {symbols : NumberedSymbols}

theorem Stacked.reduces (stacked : a.Stacked g c.stack symbols) (table : a.Tabulates g) (lawful : g.Lawful)
    (step : a.step c = .reduced d) :
    a.Reduces c.next.token c.stack d.stack ∧ d.rest = c.rest ∧ ∃ symbols, a.Stacked g d.stack symbols := by
  obtain ⟨rule, production, next, acts, known, leads, rfl⟩ := step_eq_reduced.mp step
  have asks := (table.reduce (stacked.head_lt table)).mp acts
  obtain ⟨other, rest, target, ruled, rfl, below, same⟩ := stacked.reduce table lawful asks
  rw [table.grammar, ruled] at known
  obtain rfl := Option.some.inj known
  obtain rfl := Option.some.inj (leads.symm.trans same)
  refine ⟨.intro acts (by rw [table.grammar, ruled]) ?_ leads, rfl, _, below⟩
  rw [stacked.length_eq, List.length_append, List.length_reverse]
  omega

/-- Reductions that end are carried out if the limit is not less than the number of their stacks. -/
private theorem exists_visited (table : a.Tabulates g) (lawful : g.Lawful) (stacked : a.Stacked g c.stack symbols)
    (path : Relation.ReflTransGen (fun c d => a.step c = .reduced d) c d) (stops : ∀ e, a.step d ≠ .reduced e) :
    a.Halts c.next.token c.stack ∧ ∃ visited : List (List Nat), visited.Nodup ∧
      (∀ stack ∈ visited, Relation.ReflTransGen (a.Reduces c.next.token) c.stack stack) ∧
      ∀ limit, visited.length ≤ limit → a.settle limit c = a.step d := by
  induction path using Relation.ReflTransGen.head_induction_on generalizing symbols with
  | refl =>
    refine ⟨⟨_, ?_⟩, [d.stack], by simp, by simp [Relation.ReflTransGen.refl], ?_⟩
    · intro after reduces
      cases reduces with
      | @intro rule next production acts known high leads =>
        exact absurd (step_eq_reduced.mpr ⟨rule, production, next, acts, known, leads, rfl⟩) (stops _)
    · intro limit enough
      cases limit with
      | zero => simp at enough
      | succ limit =>
        rw [settle]
        split
        next e reduced => exact absurd reduced (stops e)
        next => rfl
  | @head c e step _ ih =>
    obtain ⟨reduces, rest, more, stacked'⟩ := stacked.reduces table lawful step
    have token : e.next.token = c.next.token := by rw [Config.next, Config.next, rest]
    obtain ⟨halts, visited, distinct, reached, settles⟩ := ih stacked'
    rw [token] at halts reached
    have halts' : a.Halts c.next.token c.stack := ⟨_, fun after other => reduces.unique other ▸ halts⟩
    refine ⟨halts', c.stack :: visited, List.nodup_cons.mpr ⟨?_, distinct⟩, ?_, ?_⟩
    · intro again
      exact halts'.not_cyclic (.head' reduces (reached _ again))
    · intro stack member
      rcases List.mem_cons.mp member with rfl | later
      · exact .refl
      · exact .head reduces (reached stack later)
    · intro limit enough
      cases limit with
      | zero => simp at enough
      | succ limit =>
        rw [settle, step]
        exact settles limit (Nat.le_of_succ_le_succ enough)

/-- The limit of a run does not cut off reductions that end. -/
theorem settle_eq (table : a.Tabulates g) (lawful : g.Lawful) (stacked : a.Stacked g c.stack symbols)
    (path : Relation.ReflTransGen (fun c d => a.step c = .reduced d) c d) (stops : ∀ e, a.step d ≠ .reduced e) :
    a.settle (a.reductionLimit c) c = a.step d := by
  obtain ⟨halts, visited, distinct, reached, settles⟩ := exists_visited table lawful stacked path stops
  refine settles _ ?_
  have filled : 0 < c.stack.length := by
    rw [stacked.length_eq]
    exact Nat.succ_pos _
  have few := length_le_of_small distinct fun stack member =>
    small_of_path table (stacked.inside table) filled halts (reached stack member)
  exact Nat.le_trans few (Nat.pow_le_pow_right (Nat.succ_pos _) (Nat.le_succ _))

end Automaton

end CommandLang
