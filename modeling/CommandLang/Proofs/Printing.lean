import CommandLang.Proofs.WellFormed

/-! The texts of types. A type that is read is read back from its text, so two of them have different texts, and different
nonterminals for their constants and for what is read of them. -/

namespace CommandLang

namespace Text

variable {mark : Char} {before : List Char}

theorem stripLast_concat (mark : Char) (before : List Char) : stripLast mark (before ++ [mark]) = some before := by
  rw [stripLast, if_pos List.getLast?_concat, List.dropLast_concat]

theorem cutFirst_append_cons (clear : mark ∉ before) (after : List Char) :
    cutFirst mark (before ++ mark :: after) = some (before, after) := by
  induction before with
  | nil => simp [cutFirst]
  | cons first rest ih =>
    rw [List.mem_cons, not_or] at clear
    simp [cutFirst, Ne.symm clear.1, ih clear.2]

end Text

namespace ParamType

theorem lookup_named_eq_none {text : String} (opened : '(' ∈ text.toList) : named.lookup text = none := by
  have plain : ∀ entry ∈ named, '(' ∉ entry.1.toList := by decide +kernel
  refine List.lookup_eq_none_iff.mpr fun entry listed => bne_iff_ne.mpr ?_
  rintro rfl
  exact plain entry listed opened

theorem application_eq {constructor : List Char} (plain : '(' ∉ constructor) (argument : List Char) :
    application (constructor ++ '(' :: (argument ++ [')'])) = some (constructor, argument) := by
  have whole : constructor ++ '(' :: (argument ++ [')']) = (constructor ++ '(' :: argument) ++ [')'] := by simp
  rw [application, whole, Text.stripLast_concat, Option.bind_some, Text.cutFirst_append_cons plain]

theorem read_application {constructor argument : List Char} (plain : '(' ∉ constructor) (some : argument ≠ []) :
    read (constructor ++ '(' :: (argument ++ [')'])) =
      if constructor = "Array".toList then (read argument).map array
      else if constructor = "Entity".toList then Option.some (entity (String.ofList argument))
      else if constructor = "Measure".toList then Option.some (measure (String.ofList argument))
      else if constructor = "Enum".toList then (members argument).map enumeration
      else none := by
  have unnamed : named.lookup (String.ofList (constructor ++ '(' :: (argument ++ [')']))) = none :=
    lookup_named_eq_none (by simp)
  rw [read, unnamed]
  dsimp only
  split
  next unknown => cases unknown.symm.trans (application_eq plain argument)
  next found =>
    obtain ⟨rfl, rfl⟩ := Prod.mk.inj (Option.some.inj (found.symm.trans (application_eq plain argument)))
    rw [if_neg (by simpa using some)]

theorem members_intercalate {known : List String} (proper : (enumeration known).Proper) :
    members (",".intercalate known).toList = some known := by
  obtain ⟨nonempty, each⟩ := proper
  have pieces : (",".intercalate known).toList.splitOnP (· = ',') = known.map String.toList := by
    have clear : ∀ piece ∈ known.map String.toList, ',' ∉ piece := by
      simpa using fun member listed => (each member listed).2.1
    have cut := List.splitOn_intercalate ',' clear (by simpa using nonempty)
    rw [String.toList_intercalate]
    simpa [List.splitOn, beq_eq_decide] using cut
  have trimmed : (known.map String.toList).map Text.trim = known.map String.toList := by
    simpa using fun member listed => (each member listed).2.2
  have some : (known.map String.toList).any List.isEmpty = false := by
    simpa using fun member listed => (each member listed).1
  simp only [members, pieces, trimmed, some, Bool.false_eq_true, if_false]
  simp

theorem intercalate_ne_nil {known : List String} (proper : (enumeration known).Proper) : (",".intercalate known).toList ≠ [] := by
  obtain ⟨nonempty, each⟩ := proper
  match known, nonempty with
  | [member], _ => simpa using (each member (by simp)).1
  | member :: next :: rest, _ => simp [String.intercalate_cons_cons]

theorem text_ne_empty (type : ParamType) : type.text ≠ "" := by
  intro same
  have letters := congrArg String.toList same
  cases type <;> simp [text] at letters

theorem read_text {type : ParamType} (proper : type.Proper) : read type.text.toList = some type := by
  induction type with
  | entity kind =>
    have letters : (entity kind).text.toList = "Entity".toList ++ '(' :: (kind.toList ++ [')']) := by simp [text]
    have some : kind.toList ≠ [] := by simpa using (show kind ≠ "" from proper)
    rw [letters, read_application (by decide) some]
    simp
  | measure family =>
    have letters : (measure family).text.toList = "Measure".toList ++ '(' :: (family.toList ++ [')']) := by simp [text]
    have some : family.toList ≠ [] := by simpa using (show family ≠ "" from proper)
    rw [letters, read_application (by decide) some]
    simp
  | enumeration known =>
    have letters : (enumeration known).text.toList = "Enum".toList ++ '(' :: ((",".intercalate known).toList ++ [')']) := by
      simp [text]
    rw [letters, read_application (by decide) (intercalate_ne_nil proper), members_intercalate proper]
    simp
  | array element ih =>
    have letters : (array element).text.toList = "Array".toList ++ '(' :: (element.text.toList ++ [')']) := by simp [text]
    rw [letters, read_application (by decide) (by simpa using element.text_ne_empty), if_pos rfl, ih proper, Option.map_some]
  | _ => decide +kernel

variable {type other : ParamType}

theorem text_inj (proper : type.Proper) (proper' : other.Proper) (same : type.text = other.text) : type = other := by
  have read := read_text proper
  rw [same, read_text proper'] at read
  exact (Option.some.inj read).symm

theorem constantName_inj (proper : type.Proper) (proper' : other.Proper) (same : type.constantName = other.constantName) :
    type = other :=
  text_inj proper proper' ((String.append_right_inj _).mp same)

theorem outputName_inj (proper : type.Proper) (proper' : other.Proper) (same : type.outputName = other.outputName) :
    type = other :=
  text_inj proper proper' ((String.append_right_inj _).mp same)

theorem ofString_eq_ok_iff {source : String} : ofString source = .ok type ↔ read source.toList = some type := by
  rw [ofString]
  split
  next found => rw [found, Except.ok.injEq, Option.some.injEq]
  next unknown => simp [unknown]

/-- A text that is printed for the type that it is read as: nothing in it is shortened, and no blanks stand around the
members of an enum. -/
def Canonical (text : String) : Prop := ∃ type, ofString text = .ok type ∧ type.text = text

/-- A type that was read is read again from its text, and no other type that can be read has this text. So whichever way
a type was spelled, it has one canonical text. -/
theorem ofString_text {source : String} (known : ofString source = .ok type) :
    ofString type.text = .ok type ∧
    (∀ source' type', ofString source' = .ok type' → type'.text = type.text → type' = type) ∧
    ∃! canonical, ofString canonical = .ok type ∧ Canonical canonical := by
  have proper : ∀ {source type}, ofString source = .ok type → type.Proper := fun known =>
    proper_of_read (ofString_eq_ok_iff.mp known)
  have again : ofString type.text = .ok type := ofString_eq_ok_iff.mpr (read_text (proper known))
  refine ⟨again, ?_, type.text, ⟨again, type, again, rfl⟩, ?_⟩
  · intro source' type' known' same
    exact text_inj (proper known') (proper known) same
  · intro canonical ⟨known', type', known'', printed⟩
    obtain rfl := Except.ok.inj (known'.symm.trans known'')
    exact printed.symm

/-- Parentheses without a partner and blanks around them do no harm. -/
theorem ofString_text_unbalanced :
    ofString "Array(Enum( a) ,\t(b, c ))" = .ok (array (enumeration ["a)", "(b", "c"])) ∧
    ofString "Array(Enum(a),(b,c))" = .ok (array (enumeration ["a)", "(b", "c"])) := by
  have known : ofString "Array(Enum( a) ,\t(b, c ))" = .ok (array (enumeration ["a)", "(b", "c"])) := by decide +kernel
  exact ⟨known, (ofString_text known).1⟩

example : ["Bool", "URL", "Enum(on , off)"].map (fun source => (ofString source).toOption.map text) =
    [some "Boolean", some "Entity(tt:url)", some "Enum(on,off)"] := by decide +kernel

end ParamType

end CommandLang
