import CommandLang.Proofs.Spelling
import CommandLang.Schema.Language

/-! The draft of a schema. Its rules and classes are the ones that the clauses of the schema name, whatever the order and
the number of times that a clause comes. -/

namespace CommandLang

namespace Schema

variable (s : Schema)

private theorem declare_eq (names : List String) (d : Draft) :
    names.foldl (fun d name => d.declareExtensible name (s.placeholders name)) d =
      { d with extensible := names.foldl (fun m name => m.insert name (s.placeholders name)) d.extensible } := by
  induction names generalizing d with
  | nil => rfl
  | cons name rest ih => rw [List.foldl_cons, List.foldl_cons, ih, Draft.declareExtensible]

private theorem get?_foldl_insert {κ υ : Type} [DecidableEq κ] (value : κ → υ) (keys : List κ) (m : OrderedMap κ υ) (key : κ) :
    (keys.foldl (fun m key => m.insert key (value key)) m).get? key = if key ∈ keys then some (value key) else m.get? key := by
  induction keys generalizing m with
  | nil => simp
  | cons first rest ih =>
    rw [List.foldl_cons, ih, OrderedMap.get?_insert]
    by_cases later : key ∈ rest
    · simp [later]
    · by_cases same : key = first
      · simp [same]
      · simp [later, same]

theorem draft_eq : s.draft =
    { (Draft.empty startName).addRules (s.clauses.filterMap Clause.rule?) with
      extensible := (s.clauses.filterMap Clause.values?).eraseDups.foldl (fun m name => m.insert name (s.placeholders name)) ∅
      copy := if Clause.quotation ∈ s.clauses then OrderedMap.insert ∅ quotedString s.quotation else ∅ } := by
  rw [draft, Draft.addRules_eq, declare_eq]
  dsimp only
  split <;> rfl

variable {s} {name lhs : String}

theorem hasRule_draft {rhs : Rhs} : s.draft.HasRule lhs rhs ↔ .rule lhs rhs ∈ s.clauses := by
  have rules : s.draft.rules = ((Draft.empty startName).addRules (s.clauses.filterMap Clause.rule?)).rules := by rw [draft_eq]
  rw [Draft.hasRule_congr rules, Draft.hasRule_addRules]
  simp only [Draft.not_hasRule_empty, false_or, List.mem_filterMap]
  constructor
  · intro listed
    obtain ⟨clause, member, entry⟩ := listed
    cases clause with
    | rule => cases entry; exact member
    | _ => cases entry
  · intro member
    exact ⟨_, member, rfl⟩

theorem extensible_draft :
    s.draft.extensible.get? name = if .values name ∈ s.clauses then some (s.placeholders name) else none := by
  have listed : name ∈ (s.clauses.filterMap Clause.values?).eraseDups ↔ .values name ∈ s.clauses := by
    rw [List.mem_eraseDups, List.mem_filterMap]
    constructor
    · intro listed
      obtain ⟨clause, member, entry⟩ := listed
      cases clause with
      | values => cases entry; exact member
      | _ => cases entry
    · intro member
      exact ⟨_, member, rfl⟩
  rw [draft_eq]
  simp only [get?_foldl_insert, listed, OrderedMap.get?_empty]

theorem copy_draft :
    s.draft.copy.get? name = if name = quotedString ∧ .quotation ∈ s.clauses then some s.quotation else none := by
  rw [draft_eq]
  by_cases quoted : Clause.quotation ∈ s.clauses
  · simp only [quoted, if_true, OrderedMap.get?_insert, and_true, OrderedMap.get?_empty]
  · simp only [quoted, if_false, and_false, OrderedMap.get?_empty]

end Schema

end CommandLang
