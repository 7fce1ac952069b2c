import CommandLang.OrderedMap

/-! Entries of lists and maps. A key with one entry is looked up by membership, and erasing duplicates
leaves each element once. -/

namespace CommandLang

variable {κ υ : Type} [DecidableEq κ]

theorem nodup_eraseDups {α : Type} [DecidableEq α] (items : List α) : items.eraseDups.Nodup := by
  induction size : items.length using Nat.strongRecOn generalizing items with
  | ind count ih =>
    cases items with
    | nil => simp
    | cons a rest =>
      have shorter : (rest.filter fun b => !b == a).length < count :=
        size ▸ Nat.lt_succ_of_le (List.length_filter_le _ _)
      rw [List.eraseDups_cons, List.nodup_cons]
      exact ⟨by simp, ih _ shorter _ rfl⟩

theorem mem_of_lookup {entries : List (κ × υ)} {key : κ} {value : υ} (found : entries.lookup key = some value) :
    (key, value) ∈ entries := by
  obtain ⟨front, back, rfl, _⟩ := List.lookup_eq_some_iff.mp found
  simp

theorem lookup_eq_some_iff_mem {entries : List (κ × υ)} (distinct : (entries.map Prod.fst).Nodup) {key : κ} {value : υ} :
    entries.lookup key = some value ↔ (key, value) ∈ entries := by
  constructor
  · exact mem_of_lookup
  · intro member
    obtain ⟨front, back, rfl⟩ := List.append_of_mem member
    refine List.lookup_eq_some_iff.mpr ⟨front, back, rfl, ?_⟩
    intro other inside
    simp only [List.map_append, List.map_cons, List.nodup_append] at distinct
    have apart := distinct.2.2 other.1 (List.mem_map_of_mem inside) key (by simp)
    simpa using Ne.symm apart

namespace OrderedMap

omit [DecidableEq κ] in
@[simp] theorem entries_empty : (∅ : OrderedMap κ υ).entries = [] := rfl

omit [DecidableEq κ] in
@[simp] theorem keys_empty : (∅ : OrderedMap κ υ).keys = [] := rfl

@[simp] theorem contains_empty (key : κ) : (∅ : OrderedMap κ υ).contains key = false := rfl

theorem get?_eq_some_iff {m : OrderedMap κ υ} {key : κ} {value : υ} :
    m.get? key = some value ↔ (key, value) ∈ m.entries :=
  lookup_eq_some_iff_mem m.nodup_keys

theorem get?_of_contains {m : OrderedMap κ υ} {key : κ} (present : m.contains key = true) :
    ∃ value, m.get? key = some value := by
  obtain ⟨⟨_, value⟩, member, rfl⟩ := List.mem_map.mp (contains_iff.mp present)
  exact ⟨value, get?_eq_some_iff.mpr member⟩

theorem contains_of_get? {m : OrderedMap κ υ} {key : κ} {value : υ} (found : m.get? key = some value) :
    m.contains key = true :=
  contains_iff.mpr (List.mem_map.mpr ⟨_, get?_eq_some_iff.mp found, rfl⟩)

private theorem get?_foldl_insert_of_notMem {m : OrderedMap κ υ} {entries : List (κ × υ)} {key : κ}
    (absent : key ∉ entries.map Prod.fst) :
    (entries.foldl (fun m (key, value) => m.insert key value) m).get? key = m.get? key := by
  induction entries generalizing m with
  | nil => rfl
  | cons entry rest ih =>
    rw [List.map_cons, List.mem_cons, not_or] at absent
    rw [List.foldl_cons, ih absent.2, get?_insert, if_neg absent.1]

private theorem get?_foldl_insert_of_mem {m : OrderedMap κ υ} {entries : List (κ × υ)}
    (distinct : (entries.map Prod.fst).Nodup) {key : κ} {value : υ} (member : (key, value) ∈ entries) :
    (entries.foldl (fun m (key, value) => m.insert key value) m).get? key = some value := by
  induction entries generalizing m with
  | nil => cases member
  | cons entry rest ih =>
    rw [List.map_cons, List.nodup_cons] at distinct
    rw [List.foldl_cons]
    rcases List.mem_cons.mp member with rfl | later
    · rw [get?_foldl_insert_of_notMem distinct.1, get?_insert, if_pos rfl]
    · exact ih distinct.2 later

theorem get?_ofList_of_mem {entries : List (κ × υ)} (distinct : (entries.map Prod.fst).Nodup) {key : κ} {value : υ}
    (member : (key, value) ∈ entries) : (ofList entries).get? key = some value :=
  get?_foldl_insert_of_mem distinct member

private theorem mem_or_of_get?_foldl_insert {m : OrderedMap κ υ} {entries : List (κ × υ)} {key : κ} {value : υ}
    (found : (entries.foldl (fun m (key, value) => m.insert key value) m).get? key = some value) :
    (key, value) ∈ entries ∨ m.get? key = some value := by
  induction entries generalizing m with
  | nil => exact Or.inr found
  | cons entry rest ih =>
    rcases ih found with later | before
    · exact Or.inl (List.mem_cons_of_mem _ later)
    · rw [get?_insert] at before
      split at before
      next same =>
        cases before
        exact Or.inl (same ▸ List.mem_cons_self ..)
      next => exact Or.inr before

theorem mem_of_get?_ofList {entries : List (κ × υ)} {key : κ} {value : υ} (found : (ofList entries).get? key = some value) :
    (key, value) ∈ entries := by
  rcases mem_or_of_get?_foldl_insert found with member | empty
  · exact member
  · cases empty

theorem exists_get?_ofList {entries : List (κ × υ)} {key : κ} {value : υ} (member : (key, value) ∈ entries) :
    ∃ last, (ofList entries).get? key = some last := by
  have found : ∀ (entries : List (κ × υ)) (m : OrderedMap κ υ), (∃ last, m.get? key = some last) ∨ key ∈ entries.map Prod.fst →
      ∃ last, (entries.foldl (fun m (key, value) => m.insert key value) m).get? key = some last := by
    intro entries
    induction entries with
    | nil => exact fun m present => present.resolve_right List.not_mem_nil
    | cons entry rest ih =>
      intro m present
      refine ih _ ?_
      rw [get?_insert]
      by_cases same : key = entry.1
      · exact Or.inl ⟨entry.2, if_pos same⟩
      · rw [if_neg same]
        exact present.imp_right fun listed => (List.mem_cons.mp listed).resolve_left same
  exact found entries ∅ (Or.inr (List.mem_map_of_mem member))

theorem updateEntries_of_notMem {key : κ} {change : Option υ → υ} {entries : List (κ × υ)}
    (absent : key ∉ entries.map Prod.fst) : updateEntries key change entries = entries ++ [(key, change none)] := by
  induction entries with
  | nil => rfl
  | cons entry rest ih =>
    rw [List.map_cons, List.mem_cons, not_or] at absent
    rw [updateEntries, if_neg (Ne.symm absent.1), ih absent.2, List.cons_append]

theorem entries_ofList {entries : List (κ × υ)} (distinct : (entries.map Prod.fst).Nodup) : (ofList entries).entries = entries := by
  have added : ∀ (entries : List (κ × υ)) (m : OrderedMap κ υ), ((m.entries ++ entries).map Prod.fst).Nodup →
      (entries.foldl (fun m (key, value) => m.insert key value) m).entries = m.entries ++ entries := by
    intro entries
    induction entries with
    | nil => exact fun m _ => (List.append_nil _).symm
    | cons entry rest ih =>
      intro m distinct
      have fresh : (m.insert entry.1 entry.2).entries = m.entries ++ [entry] := by
        refine updateEntries_of_notMem fun listed => ?_
        rw [List.map_append, List.map_cons, List.nodup_append] at distinct
        exact distinct.2.2 _ listed _ (List.mem_cons_self ..) rfl
      rw [List.foldl_cons, ih _ (by rw [fresh, List.append_assoc]; exact distinct), fresh, List.append_assoc]
      rfl
  exact added entries ∅ distinct

theorem get?_ofList_map {ι : Type} (items : List ι) (name : ι → κ) (entry : ι → υ) (key : κ) :
    (ofList (items.map fun item => (name item, entry item))).get? key = (items.reverse.find? (name · = key)).map entry := by
  have added : ∀ m : OrderedMap κ υ, (items.foldl (fun m item => m.insert (name item) (entry item)) m).get? key =
      ((items.reverse.find? (name · = key)).map entry).or (m.get? key) := by
    induction items with
    | nil => exact fun _ => rfl
    | cons item rest ih =>
      intro m
      rw [List.foldl_cons, ih, get?_insert, List.reverse_cons, List.find?_append]
      by_cases here : key = name item
      · cases later : rest.reverse.find? (name · = key) <;> simp [here]
      · have other : ¬ name item = key := fun same => here same.symm
        simp [here, other]
  rw [ofList, List.foldl_map, added, get?_empty, Option.or_none]

theorem keys_ofList_map {ι : Type} (items : List ι) (name : ι → κ) (entry other : ι → υ) :
    (ofList (items.map fun item => (name item, entry item))).keys = (ofList (items.map fun item => (name item, other item))).keys := by
  have added : ∀ m n : OrderedMap κ υ, m.keys = n.keys → (items.foldl (fun m item => m.insert (name item) (entry item)) m).keys =
      (items.foldl (fun m item => m.insert (name item) (other item)) n).keys := by
    induction items with
    | nil => exact fun _ _ same => same
    | cons item rest ih =>
      intro m n same
      exact ih _ _ (by simp only [OrderedMap.insert, keys_update, same])
  rw [ofList, ofList, List.foldl_map, List.foldl_map]
  exact added ∅ ∅ rfl

end OrderedMap

end CommandLang
