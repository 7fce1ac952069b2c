import CommandLang.Program.Word

/-! Words and the texts around them. The words of a text are not empty and have no blank inside, and such words, written
with a blank between each two, are the words of what is written. -/

namespace CommandLang.Text

def unbroken (text : String) : Bool := text.toList.all (!isBlank ·)

def IsWord (text : String) : Prop := text ≠ "" ∧ unbroken text = true

instance (text : String) : Decidable (IsWord text) := inferInstanceAs (Decidable (_ ∧ _))

theorem unbroken_iff {text : String} : unbroken text = true ↔ ∀ c ∈ text.toList, isBlank c = false := by
  simp [unbroken]

@[simp] theorem unbroken_append (text other : String) : unbroken (text ++ other) = (unbroken text && unbroken other) := by
  simp [unbroken]

theorem unbroken_intercalate {separator : String} (plain : unbroken separator = true) (items : List String) :
    unbroken (separator.intercalate items) = items.all unbroken := by
  induction items with
  | nil => simp [unbroken]
  | cons text rest ih =>
    cases rest with
    | nil => simp
    | cons next rest =>
      rw [String.intercalate_cons_cons, unbroken_append, unbroken_append, plain, ih]
      simp

theorem unbroken_toString (number : Nat) : unbroken (toString number) = true := by
  rw [unbroken_iff, Nat.toString_eq_repr, Nat.toList_repr]
  intro c inside
  have digit := Nat.isDigit_of_mem_toDigits (by decide) (by decide) inside
  simp only [Char.isDigit, Bool.and_eq_true, decide_eq_true_eq, UInt32.le_iff_toNat_le] at digit
  have bounds : 48 ≤ c.toNat ∧ c.toNat ≤ 57 := digit
  simp only [isBlank, Bool.or_eq_false_iff, Bool.and_eq_false_iff, decide_eq_false_iff_not, beq_eq_false_iff_ne]
  omega

theorem unbroken_ofList {letters source : List Char} (whole : ∀ c ∈ source, isBlank c = false) (inside : letters ⊆ source) :
    unbroken (String.ofList letters) = true := by
  rw [unbroken_iff, String.toList_ofList]
  exact fun c member => whole c (inside member)

theorem of_mem_splitOnP {α : Type} {p : α → Bool} {text piece : List α} (member : piece ∈ text.splitOnP p) :
    ∀ a ∈ piece, a ∈ text ∧ p a = false := by
  induction text generalizing piece with
  | nil => simp_all
  | cons first rest ih =>
    have wider : ∀ {a}, a ∈ rest ∧ p a = false → a ∈ first :: rest ∧ p a = false :=
      fun both => ⟨List.mem_cons_of_mem _ both.1, both.2⟩
    obtain ⟨head, tail, parts⟩ := List.exists_cons_of_ne_nil (List.splitOnP_ne_nil p rest)
    rw [List.splitOnP_cons_eq_if_modifyHead, parts, List.modifyHead_cons, ← parts] at member
    split at member
    next =>
      intro a inside
      rcases List.mem_cons.mp member with rfl | later
      · cases inside
      · exact wider (ih later a inside)
    next letter =>
      intro a inside
      rcases List.mem_cons.mp member with rfl | later
      · rcases List.mem_cons.mp inside with rfl | behind
        · exact ⟨List.mem_cons_self .., by simpa using letter⟩
        · exact wider (ih (parts ▸ List.mem_cons_self ..) a behind)
      · exact wider (ih (parts ▸ List.mem_cons_of_mem _ later) a inside)

theorem isWord_of_mem_words {text word : String} (member : word ∈ words text) : IsWord word := by
  obtain ⟨piece, inside, rfl⟩ := List.mem_map.mp member
  obtain ⟨split, nonempty⟩ := List.mem_filter.mp inside
  refine ⟨?_, unbroken_iff.mpr ?_⟩
  · intro empty
    have none : piece = [] := by simpa using congrArg String.toList empty
    simp [none] at nonempty
  · rw [String.toList_ofList]
    exact fun c letter => (of_mem_splitOnP split c letter).2

private theorem words_of_isWord {word : String} (plain : IsWord word) (rest : List Char) :
    words (String.ofList (word.toList ++ ' ' :: rest)) = word :: words (String.ofList rest) := by
  have letters := unbroken_iff.mp plain.2
  have nonempty : word.toList ≠ [] := by simpa using plain.1
  rw [words, words, String.toList_ofList, String.toList_ofList,
    List.splitOnP_append_cons_of_forall_mem letters ' ' (by decide)]
  simp [nonempty]

theorem words_intercalate {items : List String} (plain : ∀ word ∈ items, IsWord word) :
    words (" ".intercalate items) = items := by
  induction items with
  | nil => rfl
  | cons word rest ih =>
    obtain ⟨here, others⟩ := List.forall_mem_cons.mp plain
    cases rest with
    | nil =>
      have letters := unbroken_iff.mp here.2
      have nonempty : word.toList ≠ [] := by simpa using here.1
      simp [words, List.splitOnP_eq_singleton letters, nonempty]
    | cons next rest =>
      have text : " ".intercalate (word :: next :: rest) =
          String.ofList (word.toList ++ ' ' :: (" ".intercalate (next :: rest)).toList) := by
        rw [String.intercalate_cons_cons]
        simp [← String.toList_inj]
      rw [text, words_of_isWord here, String.ofList_toList, ih others]

end CommandLang.Text

namespace CommandLang

theorem words_programText {items : List String} (plain : ∀ word ∈ items, Text.IsWord word) :
    Text.words (programText (items.map .word)) = items := by
  have texts : (items.map ProgramWord.word).map ProgramWord.text = items := by
    rw [List.map_map]
    exact List.map_id items
  rw [programText, texts, Text.words_intercalate plain]

end CommandLang
