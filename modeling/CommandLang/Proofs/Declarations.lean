import CommandLang.Proofs.Spelling
import Mathlib.Data.List.Induction

/-! Drafts that are built up from declarations. Rules are kept under their nonterminals, a rule that comes again is
not repeated, and of two declarations of a class the later one counts; everything stands in the order in which it came
first. -/

namespace CommandLang

theorem eraseDups_concat {α : Type} [BEq α] [LawfulBEq α] (items : List α) (a : α) :
    (items ++ [a]).eraseDups = if a ∈ items.eraseDups then items.eraseDups else items.eraseDups ++ [a] := by
  rw [List.eraseDups_append]
  by_cases known : a ∈ items
  · simp [List.removeAll, known]
  · simp [List.removeAll, known, List.eraseDups_cons]

namespace OrderedMap

variable {κ υ : Type} [DecidableEq κ]

theorem keys_ofList (entries : List (κ × υ)) : (ofList entries).keys = (entries.map Prod.fst).eraseDups := by
  induction entries using List.reverseRecOn with
  | nil => rfl
  | append_singleton front last ih =>
    have added : ofList (front ++ [last]) = (ofList front).insert last.1 last.2 := by
      rw [ofList, List.foldl_append]
      rfl
    rw [added, insert, keys_update, ih, List.map_append]
    exact (eraseDups_concat ..).symm

end OrderedMap

namespace Draft

theorem addRules_concat (d : Draft) (front : List (String × Rhs)) (last : String × Rhs) :
    d.addRules (front ++ [last]) = (d.addRules front).addRule last.1 last.2 := by
  rw [addRules, List.foldl_append]
  rfl

theorem keys_addRules (start : String) (rules : List (String × Rhs)) :
    ((empty start).addRules rules).rules.keys = (rules.map Prod.fst).eraseDups := by
  induction rules using List.reverseRecOn with
  | nil => rfl
  | append_singleton front last ih =>
    rw [addRules_concat, addRule, OrderedMap.keys_update, ih, List.map_append]
    exact (eraseDups_concat ..).symm

theorem productions_addRule (d : Draft) (lhs name : String) (rhs : Rhs) : (d.addRule lhs rhs).productions name =
    if name = lhs then (if rhs ∈ d.productions name then d.productions name else d.productions name ++ [rhs])
    else d.productions name := by
  rw [productions, addRule, OrderedMap.get?_update]
  by_cases same : name = lhs
  · subst same
    rw [if_pos rfl, if_pos rfl]
    rfl
  · rw [if_neg same, if_neg same]
    rfl

theorem productions_addRules (start : String) (rules : List (String × Rhs)) (name : String) :
    ((empty start).addRules rules).productions name = ((rules.filter (·.1 = name)).map Prod.snd).eraseDups := by
  induction rules using List.reverseRecOn with
  | nil => rfl
  | append_singleton front last ih =>
    obtain ⟨lhs, rhs⟩ := last
    rw [addRules_concat, productions_addRule, ih, List.filter_append, List.map_append]
    by_cases same : name = lhs
    · subst same
      have added : ([(name, rhs)].filter (·.1 = name)).map Prod.snd = [rhs] := by simp
      rw [if_pos rfl, added]
      exact (eraseDups_concat _ rhs).symm
    · have added : ([(lhs, rhs)].filter (·.1 = name)).map Prod.snd = [] := by simp [Ne.symm same]
      rw [if_neg same, added, List.append_nil]

theorem ruleList_eq (d : Draft) : d.ruleList = d.rules.keys.flatMap fun name => (d.productions name).map (name, ·) := by
  rw [ruleList, OrderedMap.keys, List.flatMap_map]
  apply List.flatMap_congr
  rintro ⟨lhs, known⟩ listed
  rw [productions, OrderedMap.get?_eq_some_iff.mpr listed, Option.getD_some]

end Draft

inductive Declaration where
  | rule (lhs : String) (rhs : Rhs)
  | extensible (name : String) (vocabulary : List String)
  | copy (name : String) (declaration : CopyClass)
deriving DecidableEq

namespace Declaration

def rule? : Declaration → Option (String × Rhs)
  | rule lhs rhs => some (lhs, rhs)
  | _ => none

def extensible? : Declaration → Option (String × List String)
  | extensible name vocabulary => some (name, vocabulary)
  | _ => none

def copy? : Declaration → Option (String × CopyClass)
  | copy name declaration => some (name, declaration)
  | _ => none

end Declaration

def Draft.declare (d : Draft) : Declaration → Draft
  | .rule lhs rhs => d.addRule lhs rhs
  | .extensible name vocabulary => d.declareExtensible name vocabulary
  | .copy name declaration => d.declareCopy name declaration

abbrev Declarations := List Declaration

namespace Declarations

variable (declared : Declarations)

def draft (start : String) : Draft := declared.foldl Draft.declare (.empty start)

def names : List String := ((declared.filterMap Declaration.rule?).map Prod.fst).eraseDups

def productions (name : String) : List Rhs :=
  (((declared.filterMap Declaration.rule?).filter (·.1 = name)).map Prod.snd).eraseDups

def rules : List (String × Rhs) := declared.names.flatMap fun name => (declared.productions name).map (name, ·)

def values : List String := ((declared.filterMap Declaration.extensible?).map Prod.fst).eraseDups

def vocabulary? (name : String) : Option (List String) :=
  ((declared.filterMap Declaration.extensible?).reverse.find? (·.1 = name)).map Prod.snd

def copies : List String := ((declared.filterMap Declaration.copy?).map Prod.fst).eraseDups

/-- The terminals one after the other as they are met: in the rules from left to right, then as classes. -/
def met : List Terminal :=
  declared.rules.flatMap (fun (_, rhs) => rhs.filterMap Symbol.terminal?) ++
  declared.values.map .extensible ++ declared.copies.map .copy

variable {declared} {start : String}

theorem draft_eq : declared.draft start =
    { (Draft.empty start).addRules (declared.filterMap Declaration.rule?) with
      extensible := .ofList (declared.filterMap Declaration.extensible?)
      copy := .ofList (declared.filterMap Declaration.copy?) } := by
  induction declared using List.reverseRecOn with
  | nil => rfl
  | append_singleton front last ih =>
    have added : draft (front ++ [last]) start = (draft front start).declare last := by
      rw [draft, List.foldl_append]
      rfl
    rw [added, ih]
    simp only [List.filterMap_append, Draft.addRules, OrderedMap.ofList, List.foldl_append]
    cases last <;> rfl

theorem start_draft : (declared.draft start).start = start := by
  rw [draft_eq, Draft.addRules_eq]
  rfl

theorem keys_rules : (declared.draft start).rules.keys = declared.names := by
  rw [draft_eq]
  exact Draft.keys_addRules ..

theorem productions_draft (name : String) : (declared.draft start).productions name = declared.productions name := by
  rw [draft_eq]
  exact Draft.productions_addRules ..

theorem productions_ne_nil {name : String} (member : name ∈ declared.names) : declared.productions name ≠ [] := by
  obtain ⟨⟨_, rhs⟩, listed, rfl⟩ := List.mem_map.mp (List.mem_eraseDups.mp member)
  have first : rhs ∈ declared.productions _ :=
    List.mem_eraseDups.mpr (List.mem_map.mpr ⟨_, List.mem_filter.mpr ⟨listed, decide_eq_true rfl⟩, rfl⟩)
  exact List.ne_nil_of_mem first

theorem values_ne_nil {productions : List Rhs} (member : productions ∈ (declared.draft start).rules.values) :
    productions ≠ [] := by
  obtain ⟨⟨name, _⟩, listed, rfl⟩ := List.mem_map.mp member
  have key : name ∈ (declared.draft start).rules.keys := List.mem_map_of_mem listed
  have known : (declared.draft start).productions name = declared.productions name := productions_draft name
  rw [Draft.productions, OrderedMap.get?_eq_some_iff.mpr listed, Option.getD_some] at known
  rw [keys_rules] at key
  simpa only [known] using productions_ne_nil key

theorem ruleList_draft : (declared.draft start).ruleList = declared.rules := by
  simp only [Draft.ruleList_eq, keys_rules, productions_draft, rules]

theorem keys_extensible : (declared.draft start).extensible.keys = declared.values := by
  rw [draft_eq]
  exact OrderedMap.keys_ofList _

theorem get?_extensible (name : String) : (declared.draft start).extensible.get? name = declared.vocabulary? name := by
  rw [draft_eq]
  exact (congrArg (OrderedMap.get? · name) (congrArg OrderedMap.ofList (List.map_id _).symm)).trans
    (OrderedMap.get?_ofList_map _ Prod.fst Prod.snd name)

theorem keys_copy : (declared.draft start).copy.keys = declared.copies := by
  rw [draft_eq]
  exact OrderedMap.keys_ofList _

theorem terminals_draft : (declared.draft start).terminals = declared.met.eraseDups := by
  rw [Draft.terminals, ruleList_draft, keys_extensible, keys_copy]
  rfl

end Declarations

end CommandLang
