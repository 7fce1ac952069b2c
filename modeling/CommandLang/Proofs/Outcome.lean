import Mathlib.Data.List.Forall2

/-! Outcomes of steps that may fail. A chain of steps succeeds if each of them does, and otherwise it fails as the first
that fails. -/

namespace CommandLang

variable {ε φ α β : Type} {result : Except ε α} {next : α → Except ε β}

theorem bind_eq_ok {value : β} :
    (result >>= next) = .ok value ↔ ∃ between, result = .ok between ∧ next between = .ok value := by
  cases result with
  | error fault => simp [bind, Except.bind]
  | ok between => simp [bind, Except.bind]

theorem bind_eq_error {fault : ε} :
    (result >>= next) = .error fault ↔ result = .error fault ∨ ∃ between, result = .ok between ∧ next between = .error fault := by
  cases result with
  | error fault => simp [bind, Except.bind]
  | ok between => simp [bind, Except.bind]

theorem mapError_eq_ok {f : ε → φ} {value : α} : result.mapError f = .ok value ↔ result = .ok value := by
  cases result with
  | error fault => simp [Except.mapError]
  | ok found => simp [Except.mapError]

theorem mapError_eq_error {f : ε → φ} {fault : φ} :
    result.mapError f = .error fault ↔ ∃ cause, result = .error cause ∧ f cause = fault := by
  cases result with
  | error cause => simp [Except.mapError]
  | ok found => simp [Except.mapError]

theorem map_eq_ok {f : α → β} {value : β} : result.map f = .ok value ↔ ∃ found, result = .ok found ∧ f found = value := by
  cases result with
  | error fault => simp [Except.map]
  | ok found => simp [Except.map]

theorem map_eq_error {f : α → β} {fault : ε} : result.map f = .error fault ↔ result = .error fault := by
  cases result with
  | error fault => simp [Except.map]
  | ok found => simp [Except.map]

theorem mapM_eq_ok_iff {f : α → Except ε β} {items : List α} {values : List β} :
    items.mapM f = .ok values ↔ List.Forall₂ (fun item value => f item = .ok value) items values := by
  induction items generalizing values with
  | nil => simp [pure, Except.pure, eq_comm]
  | cons item rest ih =>
    rw [List.mapM_cons, bind_eq_ok, List.forall₂_cons_left_iff]
    constructor
    · rintro ⟨value, here, chain⟩
      obtain ⟨others, later, same⟩ := bind_eq_ok.mp chain
      exact ⟨value, others, here, ih.mp later, (Except.ok.inj same).symm⟩
    · rintro ⟨value, others, here, later, rfl⟩
      exact ⟨value, here, bind_eq_ok.mpr ⟨others, ih.mpr later, rfl⟩⟩

theorem exists_right_of_forall₂ {R : α → β → Prop} {left : List α} {right : List β}
    (related : List.Forall₂ R left right) {a : α} (member : a ∈ left) : ∃ b ∈ right, R a b := by
  induction related with
  | nil => cases member
  | cons here _ ih =>
    rcases List.mem_cons.mp member with rfl | later
    · exact ⟨_, List.mem_cons_self .., here⟩
    · obtain ⟨b, inside, found⟩ := ih later
      exact ⟨b, List.mem_cons_of_mem _ inside, found⟩

theorem exists_of_mapM_eq_ok {f : α → Except ε β} {items : List α} {values : List β} (mapped : items.mapM f = .ok values) :
    ∀ value ∈ values, ∃ item ∈ items, f item = .ok value :=
  fun _ member => exists_right_of_forall₂ (mapM_eq_ok_iff.mp mapped).flip member

end CommandLang
