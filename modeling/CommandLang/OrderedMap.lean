/-! Maps that remember the order in which their keys came. A key that comes again keeps its place
and changes its value, so the order of the entries is the order of first arrival. -/

namespace CommandLang

/-- A finite map as a list of entries, each key once. -/
structure OrderedMap (κ υ : Type) where
  entries : List (κ × υ)
  nodup_keys : (entries.map Prod.fst).Nodup

namespace OrderedMap

variable {κ υ ω : Type} [DecidableEq κ]

instance [DecidableEq υ] : DecidableEq (OrderedMap κ υ) := fun a b =>
  decidable_of_iff (a.entries = b.entries) <| by cases a; cases b; simp

/-- The entries after the value of `key` became `change` of what it was. -/
def updateEntries (key : κ) (change : Option υ → υ) : List (κ × υ) → List (κ × υ)
  | [] => [(key, change none)]
  | (other, value) :: rest =>
    if other = key then (key, change (some value)) :: rest
    else (other, value) :: updateEntries key change rest

theorem keys_updateEntries (key : κ) (change : Option υ → υ) (entries : List (κ × υ)) :
    (updateEntries key change entries).map Prod.fst =
      if key ∈ entries.map Prod.fst then entries.map Prod.fst else entries.map Prod.fst ++ [key] := by
  induction entries with
  | nil => simp [updateEntries]
  | cons entry rest ih =>
    obtain ⟨other, value⟩ := entry
    by_cases same : other = key
    · simp [updateEntries, same]
    · have different : ¬ key = other := fun equal => same equal.symm
      simp only [updateEntries, if_neg same, List.map_cons, List.mem_cons, different, false_or, ih]
      split <;> simp

theorem lookup_updateEntries (key k : κ) (change : Option υ → υ) (entries : List (κ × υ)) :
    (updateEntries key change entries).lookup k =
      if k = key then some (change (entries.lookup key)) else entries.lookup k := by
  induction entries with
  | nil =>
    by_cases same : k = key
    · simp [updateEntries, same]
    · have apart : (k == key) = false := by simpa using same
      simp [updateEntries, List.lookup_cons, same, apart]
  | cons entry rest ih =>
    obtain ⟨other, value⟩ := entry
    by_cases here : other = key
    · subst here
      by_cases same : k = other
      · simp [updateEntries, same]
      · have apart : (k == other) = false := by simpa using same
        simp [updateEntries, List.lookup_cons, same, apart]
    · simp only [updateEntries, if_neg here, List.lookup_cons]
      have apart : (key == other) = false := by simpa using fun equal => here (Eq.symm equal)
      rw [ih, apart]
      by_cases same : k = key
      · subst same; simp [apart]
      · simp [same]

instance : EmptyCollection (OrderedMap κ υ) := ⟨⟨[], by simp⟩⟩

instance : Inhabited (OrderedMap κ υ) := ⟨∅⟩

def keys (m : OrderedMap κ υ) : List κ := m.entries.map Prod.fst

def values (m : OrderedMap κ υ) : List υ := m.entries.map Prod.snd

def get? (m : OrderedMap κ υ) (key : κ) : Option υ := m.entries.lookup key

def contains (m : OrderedMap κ υ) (key : κ) : Bool := m.keys.contains key

/-- Changes the value of `key`, which becomes the last key if it is new. -/
def update (m : OrderedMap κ υ) (key : κ) (change : Option υ → υ) : OrderedMap κ υ where
  entries := updateEntries key change m.entries
  nodup_keys := by
    rw [keys_updateEntries]
    split
    · exact m.nodup_keys
    · next absent =>
      simp only [List.nodup_append, m.nodup_keys, List.nodup_cons, List.not_mem_nil,
        not_false_eq_true, List.nodup_nil, true_and, and_self, List.mem_singleton]
      rintro _ present _ rfl equal
      exact absent (equal ▸ present)

def insert (m : OrderedMap κ υ) (key : κ) (value : υ) : OrderedMap κ υ :=
  m.update key fun _ => value

def erase (m : OrderedMap κ υ) (key : κ) : OrderedMap κ υ where
  entries := m.entries.filter (·.1 ≠ key)
  nodup_keys := m.nodup_keys.sublist (List.filter_sublist.map Prod.fst)

/-- The map of some entries; of two with one key the later value counts. -/
def ofList (entries : List (κ × υ)) : OrderedMap κ υ :=
  entries.foldl (fun m (key, value) => m.insert key value) ∅

@[simp] theorem get?_empty (key : κ) : (∅ : OrderedMap κ υ).get? key = none := rfl

theorem get?_update (m : OrderedMap κ υ) (key k : κ) (change : Option υ → υ) :
    (m.update key change).get? k = if k = key then some (change (m.get? key)) else m.get? k :=
  lookup_updateEntries key k change m.entries

theorem get?_insert (m : OrderedMap κ υ) (key k : κ) (value : υ) :
    (m.insert key value).get? k = if k = key then some value else m.get? k :=
  get?_update m key k fun _ => value

theorem keys_update (m : OrderedMap κ υ) (key : κ) (change : Option υ → υ) :
    (m.update key change).keys = if key ∈ m.keys then m.keys else m.keys ++ [key] :=
  keys_updateEntries key change m.entries

theorem contains_iff {m : OrderedMap κ υ} {key : κ} : m.contains key = true ↔ key ∈ m.keys := by
  simp [contains]

end OrderedMap

end CommandLang
