import CommandLang.Proofs.Acceptance
import Mathlib.Data.List.Chain

/-! The devices in a program. Reading a program puts the device of a function before the function unless it stands there,
and printing one leaves out the devices that stand directly before their functions. Where no three words in a row are
devices or functions, the two undo each other. -/

namespace CommandLang

variable {devices : OrderedMap String String} {last : Option String} {words : List String}

/-- The words of a program without the devices that stand directly before their functions. -/
def withoutDevices (devices : OrderedMap String String) : List String → List String
  | [] => []
  | word :: rest =>
    if rest.head?.bind devices.get? = some word then withoutDevices devices rest
    else word :: withoutDevices devices rest

theorem withoutDevices_empty (words : List String) : withoutDevices ∅ words = words := by
  induction words with
  | nil => rfl
  | cons word rest ih =>
    have absent : rest.head?.bind (∅ : OrderedMap String String).get? = none := by
      cases rest <;> rfl
    rw [withoutDevices, absent, ih]
    rfl

theorem withoutDevices_sublist (devices : OrderedMap String String) (words : List String) :
    (withoutDevices devices words).Sublist words := by
  induction words with
  | nil => exact .slnil
  | cons word rest ih =>
    rw [withoutDevices]
    split
    · exact ih.cons word
    · exact ih.cons_cons word

namespace Vocabulary

private theorem foldl_absorb (v : Vocabulary) (last : String) (words : List String) (before : List ProgramWord) :
    (words.map .word).foldl v.absorb (.word last :: before) =
      ((withoutDevices v.devices (last :: words)).map .word).reverse ++ before := by
  induction words generalizing last before with
  | nil => simp [withoutDevices]
  | cons word rest ih =>
    have step : v.absorb (.word last :: before) (.word word) =
        .word word :: if v.devices.get? word = some last then before else .word last :: before := by
      cases asked : v.devices.get? word with
      | none => simp [absorb, ProgramWord.word?, asked]
      | some device =>
        by_cases same : device = last
        · simp [absorb, ProgramWord.word?, asked, same]
        · simp [absorb, ProgramWord.word?, asked, same, Ne.symm same]
    rw [List.map_cons, List.foldl_cons, step, ih, withoutDevices]
    by_cases gone : v.devices.get? word = some last
    · simp [withoutDevices, gone]
    · simp [withoutDevices, gone]

/-- A printed program has the words of its terms without the devices directly before their functions. -/
theorem dropDevices_words (v : Vocabulary) (words : List String) :
    v.dropDevices (words.map .word) = (withoutDevices v.devices words).map .word := by
  cases words with
  | nil => rfl
  | cons word rest =>
    have first : v.absorb [] (.word word) = [.word word] := by
      rw [absorb]
      split <;> rfl
    rw [dropDevices, List.map_cons, List.foldl_cons, first, foldl_absorb, List.append_nil, List.reverse_reverse]

end Vocabulary

/-- No word of a text is the device of the word behind it, whatever comes behind the text. -/
structure Firm (devices : OrderedMap String String) (text : List String) : Prop where
  between : text.IsChain fun word next => devices.get? next ≠ some word
  atEnd : ∀ word ∈ text.getLast?, ∀ function, devices.get? function ≠ some word

theorem firm_empty (text : List String) : Firm ∅ text where
  between := (List.pairwise_of_forall (by simp)).isChain
  atEnd := by simp

/-- What a text keeps of its words does not depend on what else is in the program, if the text is firm. -/
theorem exists_kept (devices : OrderedMap String String) (text rest : List String) :
    ∃ kept, kept.Sublist text ∧ (Firm devices text → kept = text) ∧
      withoutDevices devices (text ++ rest) = kept ++ withoutDevices devices rest := by
  induction text with
  | nil => exact ⟨[], .slnil, fun _ => rfl, rfl⟩
  | cons word text ih =>
    obtain ⟨kept, inside, whole, same⟩ := ih
    by_cases gone : (text ++ rest).head?.bind devices.get? = some word
    · refine ⟨kept, inside.cons word, fun firm => ?_, by rw [List.cons_append, withoutDevices, if_pos gone, same]⟩
      obtain ⟨function, next, asked⟩ := Option.bind_eq_some_iff.mp gone
      cases text with
      | nil => exact absurd asked (firm.atEnd word rfl function)
      | cons first text =>
        obtain rfl := Option.some.inj next
        exact absurd asked (List.isChain_cons_cons.mp firm.between).1
    · refine ⟨word :: kept, inside.cons_cons word, fun firm => ?_, by rw [List.cons_append, withoutDevices, if_neg gone, same]; rfl⟩
      have later : Firm devices text := by
        refine ⟨firm.between.of_cons, fun final found => firm.atEnd final ?_⟩
        cases text with
        | nil => cases found
        | cons first text => simpa using found
      rw [whole later]

/-- Each text of a program leaves a part of itself in the printed program, and all of itself if it is firm. -/
theorem exists_parts (devices : OrderedMap String String) (texts : List (List String)) :
    ∃ parts, parts.flatten = withoutDevices devices texts.flatten ∧
      List.Forall₂ (fun text part => part.Sublist text ∧ (Firm devices text → part = text)) texts parts := by
  induction texts with
  | nil => exact ⟨[], rfl, .nil⟩
  | cons text texts ih =>
    obtain ⟨parts, flat, related⟩ := ih
    obtain ⟨kept, inside, whole, same⟩ := exists_kept devices text texts.flatten
    exact ⟨kept :: parts, by rw [List.flatten_cons, List.flatten_cons, flat, same], .cons ⟨inside, whole⟩ related⟩

/-- No three elements in a row have a property. -/
def Sparse {α : Type} (p : α → Prop) : List α → Prop
  | first :: second :: third :: rest => ¬ (p first ∧ p second ∧ p third) ∧ Sparse p (second :: third :: rest)
  | _ => True

namespace Sparse

variable {α : Type} {p : α → Prop} {first second third : α} {rest : List α}

theorem tail (sparse : Sparse p (first :: rest)) : Sparse p rest := by
  match rest, sparse with
  | [], _ => exact trivial
  | [_], _ => exact trivial
  | _ :: _ :: _, sparse => exact sparse.2

theorem of_append {front back : List α} (sparse : Sparse p (front ++ back)) : Sparse p back := by
  induction front with
  | nil => exact sparse
  | cons _ _ ih => exact ih sparse.tail

theorem not_all (sparse : Sparse p (first :: second :: third :: rest)) (one : p first) (two : p second) : ¬ p third :=
  fun three => sparse.1 ⟨one, two, three⟩

theorem cons (sparse : Sparse p rest) (clear : ∀ next ∈ rest.head?, ¬ p next) : Sparse p (first :: rest) := by
  match rest, sparse with
  | [], _ => exact trivial
  | [_], _ => exact trivial
  | next :: _ :: _, sparse => exact ⟨fun all => clear next rfl all.2.1, sparse⟩

theorem cons_of_not (sparse : Sparse p rest) (clear : ¬ p first) : Sparse p (first :: rest) := by
  match rest, sparse with
  | [], _ => exact trivial
  | [_], _ => exact trivial
  | _ :: _ :: _, sparse => exact ⟨fun all => clear all.1, sparse⟩

theorem cons_cons (sparse : Sparse p rest) (clear : ∀ next ∈ rest.head?, ¬ p next) : Sparse p (first :: second :: rest) := by
  have later : Sparse p (second :: rest) := sparse.cons clear
  match rest, later with
  | [], _ => exact trivial
  | next :: _, later => exact ⟨fun all => clear next rfl all.2.2, later⟩

theorem of_forall₂ {β : Type} {R : β → α → Prop} {q : β → Prop} {left : List β} {right : List α} (sparse : Sparse p right)
    (related : List.Forall₂ R left right) (keeps : ∀ b a, R b a → q b → p a) : Sparse q left := by
  induction related with
  | nil => exact trivial
  | cons one rest ih =>
    have later := ih sparse.tail
    cases rest with
    | nil => exact trivial
    | cons two rest =>
      cases rest with
      | nil => exact trivial
      | cons three rest =>
        exact ⟨fun all => sparse.1 ⟨keeps _ _ one all.1, keeps _ _ two all.2.1, keeps _ _ three all.2.2⟩, later⟩

end Sparse

def signed (word : String) : Bool := word.toList.head? = some '@'

section

variable (signs : ∀ function device, devices.get? function = some device → signed function = true ∧ signed device = true)

include signs

omit signs in
/-- A device that was put in before a word is left out again. -/
theorem withoutDevices_missing (word : String) (behind : List String) :
    withoutDevices devices (missing devices last word ++ word :: behind) = withoutDevices devices (word :: behind) := by
  rw [missing]
  split
  next device asked =>
    split
    · rfl
    · rw [List.singleton_append, withoutDevices, if_pos (by simpa using asked)]
  next => rfl

/-- A word makes way for the next word of a program, but not for a device that is put before that. -/
private theorem head?_completed_iff {word : String} {rest : List String}
    (sparse : Sparse (signed · = true) (word :: completed devices (some word) rest)) :
    (completed devices (some word) rest).head?.bind devices.get? = some word ↔ rest.head?.bind devices.get? = some word := by
  cases rest with
  | nil => rfl
  | cons next rest =>
    rw [completed] at sparse ⊢
    rw [missing] at sparse ⊢
    cases asked : devices.get? next with
    | none => simp [asked]
    | some device =>
      by_cases same : device = word
      · simp [asked, same]
      · rw [asked] at sparse
        simp only [Option.some.injEq, Ne.symm same, if_false, List.singleton_append] at sparse
        have apart : devices.get? device ≠ some word := by
          intro wanted
          exact sparse.not_all (signs _ _ wanted).2 (signs _ _ asked).2 (signs _ _ asked).1
        simp [asked, same, Ne.symm same, apart]

/-- The devices that reading puts into a program are left out again, and no others than those left out before. -/
theorem withoutDevices_completed (sparse : Sparse (signed · = true) (completed devices last words)) :
    withoutDevices devices (completed devices last words) = withoutDevices devices words := by
  induction words generalizing last with
  | nil => rfl
  | cons word rest ih =>
    rw [completed] at sparse ⊢
    have later := ih sparse.of_append.tail
    rw [withoutDevices_missing, withoutDevices, withoutDevices, later]
    simp only [head?_completed_iff signs sparse.of_append]

omit signs in
private theorem missing_of_last {word other : String} (asked : devices.get? other = some word) :
    missing devices (some word) other = [] := by
  simp [missing, asked]

private theorem missing_device {word other : String} {rest : List String} (asked : devices.get? other = some word)
    (sparse : Sparse (signed · = true) (last.toList ++ completed devices last (word :: other :: rest))) :
    missing devices last word = [] := by
  obtain ⟨sign, sign'⟩ := signs _ _ asked
  rw [missing]
  split
  next device wanted =>
    split
    · rfl
    next absent =>
      rw [completed, missing, wanted] at sparse
      simp only [if_neg absent, List.singleton_append, completed, missing_of_last asked, List.nil_append] at sparse
      exact absurd sign (sparse.of_append.not_all (signs _ _ wanted).2 sign')
  next => rfl

/-- A program without the devices directly before their functions is read as the program with them. -/
theorem completed_withoutDevices (sparse : Sparse (signed · = true) (last.toList ++ completed devices last words)) :
    completed devices last (withoutDevices devices words) = completed devices last words := by
  induction words generalizing last with
  | nil => rfl
  | cons word rest ih =>
    rw [withoutDevices]
    split
    next gone =>
      obtain ⟨next, found, asked⟩ := Option.bind_eq_some_iff.mp gone
      cases rest with
      | nil => cases found
      | cons other rest =>
        obtain rfl : other = next := Option.some.inj found
        have beside := missing_of_last asked
        have alone := missing_device signs asked sparse
        have single : last ≠ some word := by
          intro same
          subst same
          obtain ⟨sign, sign'⟩ := signs _ _ asked
          simp only [completed, alone, beside, List.nil_append, Option.toList_some, List.singleton_append] at sparse
          exact sparse.not_all sign' sign' sign
        have supplied : completed devices last (other :: rest) = word :: other :: completed devices (some other) rest := by
          simp [completed, missing, asked, single]
        have whole : completed devices last (word :: other :: rest) = word :: other :: completed devices (some other) rest := by
          simp [completed, alone, beside]
        rw [whole] at sparse ⊢
        rw [ih (supplied.symm ▸ sparse), supplied]
    next =>
      rw [completed, completed]
      rw [completed] at sparse
      have later : Sparse (signed · = true) ((some word).toList ++ completed devices (some word) rest) :=
        sparse.of_append.of_append
      rw [ih later]

end

end CommandLang
