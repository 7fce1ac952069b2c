import CommandLang.Proofs.Outcome
import CommandLang.Proofs.RoundTrip
import CommandLang.Vector.Prediction

/-! Spellings of actions. A spelling tells the kind of an action and its place in the range of the kind, so what was
spelled is read as the same action. What is read is of the kind that the letter names, unless the number of a rule
that does not exist runs into the classes. -/

namespace CommandLang

namespace Codec

variable {c : Codec} {action : UInt32} {text : String} {texts : List String} {actions : List UInt32}

section Printed

variable {number : Nat} (small : number < UInt64.size)

include small

theorem actionNumber?_token (linear : c.isLinear = true) : c.actionNumber? ("T" ++ toString number).toList = some number := by
  simp [String.toList_append, actionNumber?, linear, Text.readNumber_toDigits small]

theorem actionNumber?_copy (derived : c.isLinear = false) (known : number < c.copies.length) :
    c.actionNumber? ("C" ++ toString number).toList = some (c.copyBase + number) := by
  simp [String.toList_append, actionNumber?, derived, Text.readNumber_toDigits small, known]

theorem actionNumber?_value (derived : c.isLinear = false) (known : number < c.values.length) :
    c.actionNumber? ("S" ++ toString number).toList = some (c.valueBase + number) := by
  simp [String.toList_append, actionNumber?, derived, Text.readNumber_toDigits small, known]

end Printed

theorem actionNumber?_rule {rule : Nat} (fits : Token.controls + rule < UInt64.size) (derived : c.isLinear = false) :
    c.actionNumber? ("R" ++ toString rule).toList = some (Token.controls + rule) := by
  have small : rule < UInt64.size := Nat.lt_of_le_of_lt (Nat.le_add_left ..) fits
  simp [String.toList_append, actionNumber?, derived, Text.readNumber_toDigits small, Nat.mod_eq_of_lt fits]

/-- An action that does not exist is spelled like a token or a rule behind the last one. -/
private theorem actionNumber?_invalid (above : Token.controls ≤ action.toNat) (kind : c.kind action = .invalid) :
    c.actionNumber? (c.spelling action).toList = some action.toNat := by
  have size : action.toNat < UInt64.size := Nat.lt_trans action.toNat_lt (by decide)
  simp only [spelling, kind]
  split
  next linear => exact actionNumber?_token size linear
  next derived =>
    rw [actionNumber?_rule (by rwa [Nat.add_sub_cancel' above]) (Bool.eq_false_of_not_eq_true derived),
      Nat.add_sub_cancel' above]

/-- A spelling is read as the number of the action, but padding is spelled like acceptance. -/
theorem actionNumber?_spelling (c : Codec) (action : UInt32) : c.actionNumber? (c.spelling action).toList =
    some (if action.toNat = Token.pad then Token.eos else action.toNat) := by
  have size : action.toNat < UInt64.size := Nat.lt_trans action.toNat_lt (by decide)
  have busy : Token.controls ≤ action.toNat → ¬ action.toNat = Token.pad := by
    simp only [Token.controls, Token.pad]
    omega
  have base : Token.controls ≤ c.copyBase := Nat.le_add_right _ _
  have more : c.copyBase ≤ c.valueBase := Nat.le_add_right _ _
  cases kind : c.kind action with
  | pad =>
    have number : action.toNat = Token.pad := kind_eq_iff.mp kind
    simp only [spelling, kind]
    rw [if_pos number]
    rfl
  | eos =>
    have number : action.toNat = Token.eos := kind_eq_iff.mp kind
    simp only [spelling, kind]
    rw [number]
    rfl
  | start =>
    have number : action.toNat = Token.start := kind_eq_iff.mp kind
    simp only [spelling, kind]
    rw [number]
    rfl
  | reduce rule =>
    obtain ⟨derived, _, number⟩ := kind_eq_iff.mp kind
    simp only [spelling, kind]
    rw [actionNumber?_rule (number ▸ size) derived, if_neg (busy (by omega)), number]
  | copy place =>
    obtain ⟨derived, known, number⟩ := kind_eq_iff.mp kind
    simp only [spelling, kind]
    rw [actionNumber?_copy (by omega) derived known, if_neg (busy (by omega)), number]
  | value place =>
    obtain ⟨derived, known, number⟩ := kind_eq_iff.mp kind
    simp only [spelling, kind]
    rw [actionNumber?_value (by omega) derived known, if_neg (busy (by omega)), number]
  | token token =>
    obtain ⟨linear, above, _, number⟩ := kind_eq_iff.mp kind
    simp only [spelling, kind]
    rw [actionNumber?_token (by omega) linear, if_neg (busy (by omega)), number]
  | invalid =>
    have reached : c.actionCount ≤ action.toNat := kind_eq_iff.mp kind
    have above := Nat.le_trans c.controls_le_actionCount reached
    rw [actionNumber?_invalid above kind, if_neg (busy above)]

theorem readSpelling_eq_ok {action : UInt32} : c.readSpelling text = .ok action ↔ c.actionNumber? text.toList = some action.toNat := by
  rw [readSpelling]
  constructor
  · intro read
    split at read
    next number named =>
      split at read
      next small =>
        obtain rfl := Except.ok.inj read
        rw [named, UInt32.toNat_ofNat_of_lt' small]
      · cases read
    · cases read
  · intro named
    rw [named]
    simp [UInt32.toNat_lt_size]

/-- The actions of a prediction are read from their spellings, padding as acceptance. -/
theorem readSpellings_spellings (c : Codec) (actions : List UInt32) : c.readSpellings (c.spellings actions) =
    .ok (actions.map fun action => if action.toNat = Token.pad then UInt32.ofNat Token.eos else action) := by
  refine mapM_eq_ok_iff.mpr (List.forall₂_map_left_iff.mpr (List.forall₂_map_right_iff.mpr (List.forall₂_same.mpr ?_)))
  intro action _
  rw [readSpelling_eq_ok, actionNumber?_spelling]
  split <;> rfl

/-- A letter with a number behind it, which may have a sign or zeros in front. -/
def Tells (text : String) (letter : Char) (number : Nat) : Prop :=
  ∃ digits, text.toList = letter :: digits ∧ Text.readNumber digits = some number

/-- What a spelling says of an action in a derivation. -/
inductive Denotes (c : Codec) (text : String) : ActionKind → Prop where
  | accept (same : text = "A") : Denotes c text .eos
  | start (same : text = "G") : Denotes c text .start
  | rule {rule : Nat} (tells : Tells text 'R' rule) (known : rule < c.ruleCount) : Denotes c text (.reduce rule)
  | unknown {rule : Nat} (tells : Tells text 'R' rule) (above : c.ruleCount ≤ rule) : Denotes c text .invalid
  | copy {number : Nat} (tells : Tells text 'C' number) : Denotes c text (.copy number)
  | value {number : Nat} (tells : Tells text 'S' number) : Denotes c text (.value number)

/-- A rule that does not exist, whose action would be one of a class. -/
def Overruns (c : Codec) (text : String) : Prop :=
  ∃ rule, Tells text 'R' rule ∧ c.ruleCount ≤ rule ∧ Token.controls + rule < c.actionCount

/-- A rule whose number is so large that the sum wraps round. -/
def Wraps (text : String) : Prop := ∃ rule, Tells text 'R' rule ∧ UInt64.size ≤ Token.controls + rule

theorem Tells.unique {letter other : Char} {number place : Nat} (here : Tells text letter number)
    (there : Tells text other place) : letter = other ∧ number = place := by
  obtain ⟨digits, same, read⟩ := here
  obtain ⟨digits', same', read'⟩ := there
  obtain ⟨rfl, rfl⟩ := List.cons.inj (same.symm.trans same')
  exact ⟨rfl, Option.some.inj (read.symm.trans read')⟩

theorem Tells.lt {letter : Char} {number : Nat} (tells : Tells text letter number) : number < UInt64.size := by
  obtain ⟨_, _, read⟩ := tells
  exact Text.lt_of_readNumber read

theorem Tells.mod_eq {rule : Nat} (tells : Tells text 'R' rule) (fits : ¬ Wraps text) :
    (Token.controls + rule) % UInt64.size = Token.controls + rule :=
  Nat.mod_eq_of_lt (Nat.lt_of_not_le fun wraps => fits ⟨rule, tells, wraps⟩)

/-- An action that is spelled as it was told is spelled so by every letter and number that the text tells. -/
theorem Tells.spelled {letter : Char} {number : Nat} (tells : Tells text letter number)
    (same : c.spelling action = String.singleton letter ++ toString number) :
    ∀ other place, Tells text other place → c.spelling action = String.singleton other ++ toString place := by
  intro other place tells'
  obtain ⟨rfl, rfl⟩ := tells.unique tells'
  exact same

/-- What spellings are read as in a derivation. -/
inductive Reads (c : Codec) (text : String) : Nat → Prop where
  | accept (same : text = "A") : Reads c text Token.eos
  | start (same : text = "G") : Reads c text Token.start
  | rule {rule : Nat} (tells : Tells text 'R' rule) : Reads c text ((Token.controls + rule) % UInt64.size)
  | copy {place : Nat} (tells : Tells text 'C' place) (known : place < c.copies.length) : Reads c text (c.copyBase + place)
  | value {place : Nat} (tells : Tells text 'S' place) (known : place < c.values.length) : Reads c text (c.valueBase + place)

theorem reads_of_actionNumber? (derived : c.isLinear = false) {number : Nat}
    (named : c.actionNumber? text.toList = some number) : c.Reads text number := by
  unfold actionNumber? at named
  split at named
  next letters =>
    obtain rfl := Option.some.inj named
    exact .accept (String.toList_inj.mp letters)
  next letters =>
    obtain rfl := Option.some.inj named
    exact .start (String.toList_inj.mp letters)
  next letter digits _ _ letters =>
    rw [if_neg (by simp [derived])] at named
    split at named
    · obtain ⟨rule, read, rfl⟩ := Option.map_eq_some_iff.mp named
      exact .rule ⟨digits, letters, read⟩
    · obtain ⟨place, read, rfl⟩ := Option.map_eq_some_iff.mp named
      obtain ⟨read, known⟩ := Option.filter_eq_some_iff.mp read
      exact .copy ⟨digits, letters, read⟩ (of_decide_eq_true known)
    · obtain ⟨place, read, rfl⟩ := Option.map_eq_some_iff.mp named
      obtain ⟨read, known⟩ := Option.filter_eq_some_iff.mp read
      exact .value ⟨digits, letters, read⟩ (of_decide_eq_true known)
    · cases named
  next => cases named

theorem not_tells_of_singleton {first letter : Char} {number : Nat} (single : text.toList = [first]) :
    ¬ Tells text letter number := by
  rintro ⟨digits, same, read⟩
  obtain ⟨rfl, rfl⟩ := List.cons.inj (single.symm.trans same)
  cases read

/-- What is read is of the kind that the spelling tells, and it is spelled with the same letter and number. -/
theorem denotes_of_reads (derived : c.isLinear = false) (reads : c.Reads text action.toNat) (within : ¬ c.Overruns text)
    (fits : ¬ Wraps text) : c.Denotes text (c.kind action) ∧
      ∀ letter number, Tells text letter number → c.spelling action = String.singleton letter ++ toString number := by
  generalize same : action.toNat = number at reads
  cases reads with
  | accept letters =>
    have kind : c.kind action = .eos := kind_eq_iff.mpr same
    exact ⟨kind ▸ .accept letters, fun _ _ tells => absurd tells (not_tells_of_singleton (congrArg String.toList letters))⟩
  | start letters =>
    have kind : c.kind action = .start := kind_eq_iff.mpr same
    exact ⟨kind ▸ .start letters, fun _ _ tells => absurd tells (not_tells_of_singleton (congrArg String.toList letters))⟩
  | @rule rule tells =>
    rw [tells.mod_eq fits] at same
    by_cases known : rule < c.ruleCount
    · have kind : c.kind action = .reduce rule := kind_eq_iff.mpr ⟨derived, known, same⟩
      refine ⟨kind ▸ .rule tells known, tells.spelled ?_⟩
      simp only [spelling, kind]
      rfl
    · have above := Nat.le_of_not_lt known
      have behind : c.actionCount ≤ action.toNat := same ▸ Nat.le_of_not_lt fun inside => within ⟨rule, tells, above, inside⟩
      have kind : c.kind action = .invalid := kind_eq_iff.mpr behind
      refine ⟨kind ▸ .unknown tells above, tells.spelled ?_⟩
      simp only [spelling, kind, derived, same, Nat.add_sub_cancel_left]
      rfl
  | @copy place tells known =>
    have kind : c.kind action = .copy place := kind_eq_iff.mpr ⟨derived, known, same⟩
    refine ⟨kind ▸ .copy tells, tells.spelled ?_⟩
    simp only [spelling, kind]
    rfl
  | @value place tells known =>
    have kind : c.kind action = .value place := kind_eq_iff.mpr ⟨derived, known, same⟩
    refine ⟨kind ▸ .value tells, tells.spelled ?_⟩
    simp only [spelling, kind]
    rfl

/-- Where a text tells a rule, the action is the sum that it stands for. -/
theorem Tells.sum_of_reads {rule : Nat} (tells : Tells text 'R' rule) (reads : c.Reads text action.toNat) :
    action.toNat = (Token.controls + rule) % UInt64.size := by
  generalize action.toNat = number at reads
  cases reads with
  | accept letters => exact absurd tells (not_tells_of_singleton (congrArg String.toList letters))
  | start letters => exact absurd tells (not_tells_of_singleton (congrArg String.toList letters))
  | rule tells' => rw [(tells.unique tells').2]
  | copy tells' => exact absurd (tells.unique tells').1 (by decide)
  | value tells' => exact absurd (tells.unique tells').1 (by decide)

/-- A rule that runs into the classes is read as one of them. -/
theorem kind_of_overruns (derived : c.isLinear = false) (reads : c.Reads text action.toNat) (overruns : c.Overruns text)
    (fits : ¬ Wraps text) : ∃ rule, Tells text 'R' rule ∧
      (c.kind action = .copy (rule - c.ruleCount) ∨ c.kind action = .value (rule - c.ruleCount - c.copies.length)) := by
  obtain ⟨rule, tells, above, inside⟩ := overruns
  refine ⟨rule, tells, ?_⟩
  have number : action.toNat = Token.controls + rule := (tells.sum_of_reads reads).trans (tells.mod_eq fits)
  have count := actionCount_of_derivation derived
  simp only [valueBase, copyBase] at count
  by_cases copy : rule - c.ruleCount < c.copies.length
  · exact Or.inl (kind_eq_iff.mpr ⟨derived, copy, by simp only [copyBase]; omega⟩)
  · exact Or.inr (kind_eq_iff.mpr ⟨derived, by omega, by simp only [valueBase, copyBase]; omega⟩)

/-- A sum that wraps round is the number of a control token. -/
theorem kind_of_wraps (reads : c.Reads text action.toNat) (wraps : Wraps text) :
    c.kind action = .pad ∨ c.kind action = .eos ∨ c.kind action = .start := by
  obtain ⟨rule, tells, above⟩ := wraps
  have below := tells.lt
  have number : action.toNat = Token.controls + rule - UInt64.size := by
    rw [tells.sum_of_reads reads, Nat.mod_eq_sub_mod above, Nat.mod_eq_of_lt]
    simp only [Token.controls, UInt64.size] at above below ⊢
    omega
  have control : action.toNat = Token.pad ∨ action.toNat = Token.eos ∨ action.toNat = Token.start := by
    simp only [Token.controls, Token.pad, Token.eos, Token.start] at number above ⊢
    omega
  exact control.imp kind_eq_iff.mpr (Or.imp kind_eq_iff.mpr kind_eq_iff.mpr)

/-- In a derivation spellings are read as actions of the kinds that they tell, and the actions are spelled with the same
letters and numbers, with two exceptions: rules that do not exist and run into the classes are read as classes, and rules
whose sums wrap round as control tokens. -/
theorem kinds_of_readSpellings (derived : c.isLinear = false) (read : c.readSpellings texts = .ok actions) :
    List.Forall₂ (fun text action =>
      (¬ c.Overruns text → ¬ Wraps text → c.Denotes text (c.kind action) ∧
        ∀ letter number, Tells text letter number → c.spelling action = String.singleton letter ++ toString number) ∧
      (c.Overruns text → ¬ Wraps text → ∃ rule, Tells text 'R' rule ∧
        (c.kind action = .copy (rule - c.ruleCount) ∨ c.kind action = .value (rule - c.ruleCount - c.copies.length))) ∧
      (Wraps text → c.kind action = .pad ∨ c.kind action = .eos ∨ c.kind action = .start))
      texts actions := by
  refine (mapM_eq_ok_iff.mp read).imp fun text action told => ?_
  have reads := reads_of_actionNumber? derived (readSpelling_eq_ok.mp told)
  exact ⟨denotes_of_reads derived reads, kind_of_overruns derived reads, kind_of_wraps reads⟩

theorem kinds_of_readSpellings_errand : ∃ c, ofLanguage errandLanguage errandConfig = .ok c ∧ c.isLinear = false ∧
    c.readSpellings ["R+02", "R6"] = .ok [5, 9] ∧ c.Denotes "R+02" (c.kind 5) ∧ c.spelling 5 = "R2" ∧
    c.Denotes "R6" (c.kind 9) ∧ c.spelling 9 = "R6" := by
  have checked : (ofLanguage errandLanguage errandConfig).toOption.map (fun c =>
      (c.isLinear, c.ruleCount, c.actionCount, (c.readSpellings ["R+02", "R6"]).toOption)) = some (false, 4, 9, some [5, 9]) := by
    decide +kernel
  obtain ⟨c, assembled, checked⟩ := Option.map_eq_some_iff.mp checked
  simp only [Prod.mk.injEq] at checked
  obtain ⟨derived, rules, actions, read⟩ := checked
  have read := Grammar.eq_ok_of_toOption read
  have signed : Tells "R+02" 'R' 2 := ⟨"+02".toList, by decide, by decide +kernel⟩
  have plain : Tells "R6" 'R' 6 := ⟨"6".toList, by decide, by decide +kernel⟩
  have within : ¬ c.Overruns "R+02" := by
    rintro ⟨rule, tells, above, _⟩
    rw [rules, ← (signed.unique tells).2] at above
    exact absurd above (by decide)
  have beyond : ¬ c.Overruns "R6" := by
    rintro ⟨rule, tells, _, inside⟩
    rw [actions, ← (plain.unique tells).2] at inside
    exact absurd inside (by decide)
  have narrow : ∀ {text rule}, Tells text 'R' rule → rule < 7 → ¬ Wraps text := by
    rintro text rule tells small ⟨other, tells', wraps⟩
    rw [← (tells.unique tells').2] at wraps
    simp only [Token.controls, UInt64.size] at wraps
    omega
  obtain ⟨first, others⟩ := List.forall₂_cons.mp (kinds_of_readSpellings derived read)
  obtain ⟨second, _⟩ := List.forall₂_cons.mp others
  obtain ⟨reduces, again⟩ := first.1 within (narrow signed (by decide))
  obtain ⟨invalid, again'⟩ := second.1 beyond (narrow plain (by decide))
  exact ⟨c, Grammar.eq_ok_of_toOption assembled, derived, read, reduces, again _ _ signed, invalid, again' _ _ plain⟩

/-- The grammar has four rules, and the rule behind the last one is read as its copy class. -/
theorem overrun_read_as_copy : ∃ c, ofLanguage errandLanguage errandConfig = .ok c ∧ c.isLinear = false ∧
    c.readSpellings ["R4"] = .ok [7] ∧ c.kind 7 = .copy 0 ∧ c.spelling 7 = "C0" ∧ ¬ c.Denotes "R4" (c.kind 7) := by
  have checked : (ofLanguage errandLanguage errandConfig).toOption.map (fun c =>
      (c.isLinear, (c.readSpellings ["R4"]).toOption, c.kind 7, c.spelling 7)) =
      some (false, some [7], .copy 0, "C0") := by decide +kernel
  obtain ⟨c, assembled, checked⟩ := Option.map_eq_some_iff.mp checked
  simp only [Prod.mk.injEq] at checked
  obtain ⟨derived, read, kind, spelled⟩ := checked
  refine ⟨c, Grammar.eq_ok_of_toOption assembled, derived, Grammar.eq_ok_of_toOption read, kind, spelled, ?_⟩
  rw [kind]
  rintro (_ | _ | _ | _ | tells)
  have rule : Tells "R4" 'R' 4 := ⟨"4".toList, by decide, by decide +kernel⟩
  exact absurd (rule.unique tells).1 (by decide)

end Codec

end CommandLang
