import CommandLang.Proofs.Copies
import CommandLang.Proofs.Quotation
import CommandLang.Proofs.Spacing

/-! Programs and the spelling of devices. A program that spells no device itself can be written with divided devices if and
only if it can be written with joined ones: reading puts the device in front of every function, and there it has to stand. -/

namespace CommandLang

/-- The words of a program outside of quoted texts. -/
def unquoted : (inside : Bool) → List String → List String
  | _, [] => []
  | inside, word :: rest =>
    if word = "\"" then unquoted (!inside) rest
    else if inside then unquoted inside rest
    else word :: unquoted inside rest

def DeviceLike (word : String) : Prop := "device:".toList <+: word.toList ∨ "@@".toList <+: word.toList

instance (word : String) : Decidable (DeviceLike word) := inferInstanceAs (Decidable (_ ∨ _))

theorem deviceLike_deviceWord (splitDevices : Bool) (device : String) : DeviceLike (deviceWord splitDevices device) := by
  cases splitDevices with
  | false => exact Or.inl (by simp [deviceWord])
  | true => exact Or.inr (by simp [deviceWord])

theorem capital_of_signed {word : String} (sign : signed word = true) : capital word = false := by
  simp only [signed, decide_eq_true_eq] at sign
  simp [capital, sign]

theorem unquoted_eq_self {words : List String} (single : "\"" ∉ words) : unquoted false words = words := by
  induction words with
  | nil => rfl
  | cons word rest ih =>
    rw [List.mem_cons, not_or] at single
    simp [unquoted, Ne.symm single.1, ih single.2]

/-- The words that are read outside of quoted texts are those outside of quotation marks. -/
theorem mem_unquoted_of_read {content : Option (List String)} {words : List String} {pieces : List Piece}
    (read : Piece.read true content words = some pieces) {text : String} (member : .word text ∈ pieces) :
    text ∈ unquoted content.isSome words := by
  induction words generalizing content pieces with
  | nil =>
    cases content with
    | none => cases read; cases member
    | some => cases read
  | cons word rest ih =>
    by_cases mark : word = "\""
    · subst mark
      cases content with
      | none =>
        simp only [Piece.read, and_self, if_true] at read
        simpa [unquoted] using ih read member
      | some content =>
        simp only [Piece.read, if_true, Option.map_eq_some_iff] at read
        obtain ⟨others, read, rfl⟩ := read
        simpa [unquoted] using ih read (by simpa using member)
    · cases content with
      | none =>
        simp only [Piece.read, mark, and_false, if_false, Option.map_eq_some_iff] at read
        obtain ⟨others, read, rfl⟩ := read
        simp only [unquoted, mark, if_false, Option.isSome_none, Bool.false_eq_true]
        rcases List.mem_cons.mp member with same | later
        · cases same
          exact List.mem_cons_self ..
        · exact List.mem_cons_of_mem _ (ih read later)
      | some content =>
        simp only [Piece.read, mark, if_false] at read
        simpa [unquoted, mark] using ih read member

theorem Draft.Shows.congr {d e : Draft} {piece : Piece} {terminal : Terminal} (shows' : d.Shows piece terminal)
    (values : ∀ name, d.extensible.get? name = e.extensible.get? name) (copies : ∀ name, d.copy.get? name = e.copy.get? name) :
    e.Shows piece terminal := by
  cases shows' with
  | word stands =>
    cases stands with
    | fixed => exact .word (.fixed _)
    | classWord declares member =>
      cases declares with
      | extensible declared => exact .word (.classWord (.extensible (values _ ▸ declared)) member)
      | copy declared => exact .word (.classWord (.copy (copies _ ▸ declared)) member)
  | quote declared => exact .quote (copies _ ▸ declared)

theorem Draft.Shows.eq_word {d : Draft} {piece : Piece} {text : String} (shows' : d.Shows piece (.fixed text)) : piece = .word text := by
  generalize target : Terminal.fixed text = terminal at shows'
  cases shows' with
  | word stands =>
    cases stands with
    | fixed => rw [Terminal.fixed.inj target]
    | classWord declares => cases declares <;> cases target
  | quote => cases target

theorem missing_of_none {devices : OrderedMap String String} {word : String} (unasked : devices.get? word = none)
    (last : Option String) : missing devices last word = [] := by
  simp [missing, unasked]

/-- Behind a word that is spelled like no device the device of a function is missing. -/
theorem missing_of_unlike {devices : OrderedMap String String} {word device : String} {last : Option String}
    (asked : devices.get? word = some (deviceWord true device)) (before : ∀ text ∈ last, ¬ DeviceLike text) :
    missing devices last word = [deviceWord true device] := by
  have apart : last ≠ some (deviceWord true device) := fun same => before _ same (deviceLike_deviceWord true device)
  simp [missing, asked, apart]

namespace Schema

variable {s : Schema} (legible : s.Legible)

include legible

theorem Legible.called : ∀ function ∈ s.functions, capital function.word = false :=
  fun _ known => capital_of_signed (legible.signed_word known)

/-- Pieces show the same with joined and with divided devices. -/
theorem shows_iff {piece : Piece} {terminal : Terminal} :
    s.joined.draft.Shows piece terminal ↔ s.divided.draft.Shows piece terminal := by
  have values : ∀ name, s.joined.draft.extensible.get? name = s.divided.draft.extensible.get? name := by
    intro name
    rw [extensible_draft, extensible_draft]
    simp only [values_mem_iff legible]
    rfl
  have copies : ∀ name, s.joined.draft.copy.get? name = s.divided.draft.copy.get? name := by
    intro name
    rw [copy_draft, copy_draft]
    simp only [quotation_mem]
    rfl
  exact ⟨fun shows' => shows'.congr values copies,
    fun shows' => shows'.congr (fun name => (values name).symm) (fun name => (copies name).symm)⟩

section

variable {joined : Grammar} (built : s.joined.draft.build = .ok joined) {devices : OrderedMap String String}
  (known : ∀ {word device}, devices.get? word = some device ↔
    ∃ function ∈ s.functions, function.word = word ∧ device = deviceWord true function.device)

include built

theorem eq_of_signed {word : String} (sign : signed word = true) {terminal : Terminal}
    (shows' : s.joined.draft.Shows (.word word) terminal) : terminal = .fixed word := by
  rw [← Draft.toDraft_of_build built, Draft.shows_word_iff] at shows'
  exact eq_fixed_of_standsFor legible.joined.called built (capital_of_signed sign) shows'

include known

/-- A word asks for no device if it shows a terminal that is no function. -/
theorem unasked_of_quiet {text : String} {terminal : Terminal} (shows' : s.joined.draft.Shows (.word text) terminal)
    (quiet : (Symbol.terminal terminal).quiet = true) : devices.get? text = none := by
  cases asked : devices.get? text with
  | none => rfl
  | some device =>
    obtain ⟨function, member, rfl, _⟩ := known.mp asked
    have sign := legible.signed_word member
    obtain rfl := eq_of_signed legible built sign shows'
    exact absurd ⟨_, rfl, sign⟩ (not_signed_of_quiet quiet)

theorem shows_divided {word : List Terminal} {parts : List (List Terminal)} {pieces : List Piece} {last : Option String}
    (divides : List.Forall₂ s.Divides word parts) (shows' : List.Forall₂ s.joined.draft.Shows pieces word)
    (clear : ∀ text, .word text ∈ pieces → ¬ DeviceLike text) (before : ∀ text ∈ last, ¬ DeviceLike text) :
    List.Forall₂ s.divided.draft.Shows (completedPieces devices last pieces) parts.flatten := by
  induction divides generalizing pieces last with
  | nil =>
    cases shows'
    exact .nil
  | @cons terminal part _ _ here _ ih =>
    obtain ⟨piece, rest, first, later, rfl⟩ := List.forall₂_cons_right_iff.mp shows'
    have others : ∀ text, .word text ∈ rest → ¬ DeviceLike text := fun text member => clear text (List.mem_cons_of_mem _ member)
    rw [List.flatten_cons]
    cases piece with
    | quote content =>
      have start : ∀ text ∈ (none : Option String), ¬ DeviceLike text := fun _ none => nomatch none
      have behind := ih later others start
      cases first with
      | quote declared =>
        cases here with
        | other => exact .cons ((shows_iff legible).mp (.quote declared)) behind
    | word text =>
      have apart := clear text (List.mem_cons_self ..)
      have before' : ∀ other ∈ some text, ¬ DeviceLike other := by simpa using apart
      have behind := ih later others before'
      rw [completedPieces]
      cases here with
      | @function function member =>
        cases first.eq_word
        rw [missing_of_unlike (known.mpr ⟨function, member, rfl, rfl⟩) before]
        exact .cons (.word (.fixed _)) (.cons (.word (.fixed _)) behind)
      | device device =>
        cases first.eq_word
        exact absurd (deviceLike_deviceWord false device) apart
      | other quiet =>
        rw [missing_of_none (unasked_of_quiet legible built known first quiet)]
        exact .cons ((shows_iff legible).mp first) behind

omit legible built known in
/-- The part of a terminal that starts with a device is shown by a word that is spelled like one. -/
theorem Divides.quiet_of_unlike {terminal : Terminal} {part more : List Terminal} {piece : Piece} {rest : List Piece}
    (divides : s.Divides terminal part) (shows' : List.Forall₂ s.divided.draft.Shows (piece :: rest) (part ++ more))
    (apart : ∀ text, piece = .word text → ¬ DeviceLike text) :
    part = [terminal] ∧ (Symbol.terminal terminal).quiet = true := by
  cases divides with
  | @function function =>
    have like := deviceLike_deviceWord true function.device
    exact absurd like (apart _ (List.forall₂_cons.mp shows').1.eq_word)
  | device device =>
    have like := deviceLike_deviceWord true device
    exact absurd like (apart _ (List.forall₂_cons.mp shows').1.eq_word)
  | other quiet => exact ⟨rfl, quiet⟩

omit known in
/-- A function that is spelled like no device does not start a part: its device would stand before it. -/
theorem not_shows_function {word : List Terminal} {parts : List (List Terminal)} {text : String} {rest : List Piece}
    (divides : List.Forall₂ s.Divides word parts) (sign : signed text = true) (apart : ¬ DeviceLike text) :
    ¬ List.Forall₂ s.divided.draft.Shows (.word text :: rest) parts.flatten := by
  intro shows'
  cases divides with
  | nil => cases shows'
  | cons here _ =>
    obtain ⟨rfl, quiet⟩ := here.quiet_of_unlike shows' (by simpa using apart)
    obtain rfl := eq_of_signed legible built sign ((shows_iff legible).mpr (List.forall₂_cons.mp shows').1)
    exact not_signed_of_quiet quiet ⟨_, rfl, sign⟩

omit known in
/-- A device that was put in before a function, and the function, show the part of this function. -/
theorem eq_function_of_shows {terminal : Terminal} {part : List Terminal} {parts : List (List Terminal)} {word : List Terminal}
    {called : TypedFunction} {rest : List Piece} (here : s.Divides terminal part) (divides : List.Forall₂ s.Divides word parts)
    (member : called ∈ s.functions) (apart : ¬ DeviceLike called.word)
    (shows' : List.Forall₂ s.divided.draft.Shows (.word (deviceWord true called.device) :: .word called.word :: rest)
      (part ++ parts.flatten)) :
    terminal = .fixed called.word ∧ List.Forall₂ s.divided.draft.Shows rest parts.flatten := by
  cases here with
  | function =>
    obtain ⟨_, shows'⟩ := List.forall₂_cons.mp shows'
    obtain ⟨second, later⟩ := List.forall₂_cons.mp shows'
    exact ⟨congrArg Terminal.fixed (Piece.word.inj second.eq_word).symm, later⟩
  | device =>
    obtain ⟨_, shows'⟩ := List.forall₂_cons.mp shows'
    exact absurd shows' (not_shows_function legible built divides (legible.signed_word member) apart)
  | other quiet =>
    obtain ⟨first, _⟩ := List.forall₂_cons.mp shows'
    have sign : signed (deviceWord true called.device) = true := by simp [signed, deviceWord]
    obtain rfl := eq_of_signed legible built sign ((shows_iff legible).mpr first)
    exact absurd ⟨_, rfl, sign⟩ (not_signed_of_quiet quiet)

/-- A program that is read with divided devices, where its devices are put in, is read with joined ones. -/
theorem shows_joined {word : List Terminal} {parts : List (List Terminal)} {pieces : List Piece} {last : Option String}
    (divides : List.Forall₂ s.Divides word parts)
    (shows' : List.Forall₂ s.divided.draft.Shows (completedPieces devices last pieces) parts.flatten)
    (clear : ∀ text, .word text ∈ pieces → ¬ DeviceLike text) (before : ∀ text ∈ last, ¬ DeviceLike text) :
    List.Forall₂ s.joined.draft.Shows pieces word := by
  induction divides generalizing pieces last with
  | nil =>
    cases pieces with
    | nil => exact .nil
    | cons piece rest => cases piece <;> simp [completedPieces] at shows'
  | @cons terminal part _ _ here divides ih =>
    cases pieces with
    | nil => cases here <;> simp [completedPieces] at shows'
    | cons piece rest =>
      have others : ∀ text, .word text ∈ rest → ¬ DeviceLike text := fun text member => clear text (List.mem_cons_of_mem _ member)
      cases piece with
      | quote content =>
        obtain ⟨rfl, _⟩ := here.quiet_of_unlike shows' (by simp)
        obtain ⟨first, later⟩ := List.forall₂_cons.mp shows'
        exact .cons ((shows_iff legible).mpr first) (ih later others (by simp))
      | word text =>
        have apart := clear text (List.mem_cons_self ..)
        have behind : ∀ other ∈ some text, ¬ DeviceLike other := by simpa using apart
        rw [completedPieces] at shows'
        cases asked : devices.get? text with
        | none =>
          rw [missing_of_none asked] at shows'
          obtain ⟨rfl, _⟩ := here.quiet_of_unlike shows' (by simpa using apart)
          obtain ⟨first, later⟩ := List.forall₂_cons.mp shows'
          exact .cons ((shows_iff legible).mpr first) (ih later others behind)
        | some device =>
          obtain ⟨called, member, rfl, rfl⟩ := known.mp asked
          rw [missing_of_unlike asked before] at shows'
          obtain ⟨rfl, later⟩ := eq_function_of_shows legible built here divides member apart shows'
          exact .cons (.word (.fixed _)) (ih later others behind)

end

omit legible in
/-- The quotation mark is no word of the language, be devices joined or divided. -/
theorem Divides.unmarked (legible : s.Legible) {terminal : Terminal} {part : List Terminal} (divides : s.Divides terminal part) :
    terminal ≠ .fixed "\"" ∧ .fixed "\"" ∉ part := by
  have apart : ∀ device, deviceWord true device ≠ "\"" := by
    intro device same
    simpa [deviceWord] using congrArg String.toList same
  cases divides with
  | @function function known =>
    have other : function.word ≠ "\"" := fun same => absurd (legible.signed_word known) (by rw [same]; decide)
    simp [other, Ne.symm other, Ne.symm (apart function.device)]
  | device device =>
    have other : deviceWord false device ≠ "\"" := fun same => by simpa [deviceWord] using congrArg String.toList same
    simp [other, Ne.symm (apart device)]
  | other quiet =>
    have other : terminal ≠ .fixed "\"" := by
      rintro rfl
      exact absurd quiet (by decide)
    exact ⟨other, by simpa using Ne.symm other⟩

/-- No sentence of joined devices has the quotation mark as a word. -/
theorem unmarked_of_generates {word : List Terminal} (generated : s.joined.draft.Generates word) : .fixed "\"" ∉ word := by
  obtain ⟨parts, divides, _⟩ := exists_divided legible generated
  intro marked
  obtain ⟨part, _, here⟩ := exists_right_of_forall₂ divides marked
  exact (here.unmarked legible).1 rfl

/-- A program whose quotation mark is read as a word shows nothing. -/
theorem not_shows_mark {joined : Grammar} (built : s.joined.draft.build = .ok joined) {pieces : List Piece} {word : List Terminal}
    (shows' : List.Forall₂ s.joined.draft.Shows pieces word) (unmarked : .fixed "\"" ∉ word) : .word "\"" ∉ pieces := by
  intro member
  obtain ⟨terminal, inside, here⟩ := exists_right_of_forall₂ shows' member
  rw [← Draft.toDraft_of_build built, Draft.shows_word_iff] at here
  obtain rfl := eq_fixed_of_standsFor legible.joined.called built (by decide) here
  exact unmarked inside

end Schema

theorem completedPieces_empty (last : Option String) (pieces : List Piece) : completedPieces ∅ last pieces = pieces := by
  induction pieces generalizing last with
  | nil => rfl
  | cons piece rest ih => cases piece <;> simp [completedPieces, missing, ih]

theorem subset_completedPieces (devices : OrderedMap String String) (last : Option String) (pieces : List Piece) :
    pieces ⊆ completedPieces devices last pieces := by
  induction pieces generalizing last with
  | nil => simp
  | cons piece rest ih =>
    cases piece with
    | word text => exact fun other member => List.mem_append_right _ (List.cons_subset_cons _ (ih _) member)
    | quote content => exact List.cons_subset_cons _ (ih _)

/-- The words that are read are those outside of quotation marks, unless such a mark is read as a word. -/
theorem unlike_of_read {quotes : Bool} {words : List String} {pieces : List Piece} (read : Piece.read quotes none words = some pieces)
    (unmarked : .word "\"" ∉ pieces) {p : String → Prop} (clear : ∀ word ∈ unquoted false words, p word) :
    ∀ text, .word text ∈ pieces → p text := by
  cases quotes with
  | true => exact fun text member => clear text (mem_unquoted_of_read read member)
  | false =>
    rw [Piece.read_unquoting] at read
    obtain rfl := Option.some.inj read
    rw [unquoted_eq_self (by simpa using unmarked)] at clear
    simpa using clear

/-- Joined and divided devices are two spellings of one schema. -/
theorem Catalog.exists_schemas {lines : List String} {catalog : Catalog} {valueCount : Nat} {joined divided : Language}
    (read : Catalog.ofLines lines = .ok catalog) (compiled : catalog.language false valueCount = .ok joined)
    (compiled' : catalog.language true valueCount = .ok divided) :
    ∃ s : Schema, s.Legible ∧ joined.Compiles s.joined ∧ divided.Compiles s.divided := by
  obtain ⟨functions, typed, legible, source⟩ := Catalog.exists_legible_schema read compiled
  obtain ⟨functions', typed', _, source'⟩ := Catalog.exists_legible_schema read compiled'
  obtain rfl := Except.ok.inj (typed.symm.trans typed')
  exact ⟨_, legible, source, source'⟩

/-- Pieces that spell no device show a sentence of divided devices, once their devices are put in, exactly if they show
one of joined devices. -/
theorem Schema.exists_shows_divided_iff {s : Schema} (legible : s.Legible) {joined : Grammar} (built : s.joined.draft.build = .ok joined)
    {devices : OrderedMap String String} (known : ∀ {word device}, devices.get? word = some device ↔
      ∃ function ∈ s.functions, function.word = word ∧ device = deviceWord true function.device)
    {quotes : Bool} {words : List String} {pieces : List Piece} (read : Piece.read quotes none words = some pieces)
    (clear : ∀ word ∈ unquoted false words, ¬ DeviceLike word) :
    (∃ word, List.Forall₂ s.divided.draft.Shows (completedPieces devices none pieces) word ∧ s.divided.draft.Generates word) ↔
      ∃ word, List.Forall₂ s.joined.draft.Shows pieces word ∧ s.joined.draft.Generates word := by
  have start : ∀ text ∈ (none : Option String), ¬ DeviceLike text := fun _ none => nomatch none
  constructor
  · intro shown
    obtain ⟨_, shows', generated⟩ := shown
    obtain ⟨word, parts, origin, divides, rfl⟩ := exists_joined legible generated
    have unmarked : .word "\"" ∉ pieces := by
      intro member
      have inside := subset_completedPieces devices none pieces member
      refine not_shows_mark legible built (shows'.imp fun _ _ => (shows_iff legible).mpr) ?_ inside
      intro marked
      obtain ⟨part, listed, within⟩ := List.mem_flatten.mp marked
      obtain ⟨terminal, _, here⟩ := exists_right_of_forall₂ divides.flip listed
      exact (here.unmarked legible).2 within
    exact ⟨word, shows_joined legible built known divides shows' (unlike_of_read read unmarked clear) start, origin⟩
  · intro shown
    obtain ⟨word, shows', generated⟩ := shown
    obtain ⟨parts, divides, image⟩ := exists_divided legible generated
    have unmarked : .word "\"" ∉ pieces := not_shows_mark legible built shows' (unmarked_of_generates legible generated)
    exact ⟨_, shows_divided legible built known divides shows' (unlike_of_read read unmarked clear) start, image⟩

namespace Codec

variable {catalog : Catalog} {valueCount : Nat} {joined divided : Language} {config : CodecConfig} {whole parted : Codec}

/-- Whether devices are joined or divided makes no difference to the programs that can be written, as long as they spell
no device outside of quoted texts. -/
theorem encodes_divided_iff_joined {lines : List String} (read : Catalog.ofLines lines = .ok catalog)
    (compiled : catalog.language false valueCount = .ok joined) (compiled' : catalog.language true valueCount = .ok divided)
    (assembled : ofLanguage joined config = .ok whole) (assembled' : ofLanguage divided config = .ok parted)
    (sentence : List String) (program : String) (clear : ∀ word ∈ unquoted false (Text.words program), ¬ DeviceLike word) :
    (∃ v, parted.encode sentence program = .ok v) ↔ ∃ v, whole.encode sentence program = .ok v := by
  obtain ⟨s, legible, source, source'⟩ := Catalog.exists_schemas read compiled compiled'
  have known := fun {word device} => @Schema.Legible.deviceWords_iff _ legible.divided _ source' word device
  have plain := Language.deviceWords_joined source.divided
  simp only [Schema.divided, true_and] at known
  rw [exists_encode_iff_shows compiled' assembled', exists_encode_iff_shows compiled assembled,
    Draft.toDraft_of_build source.built, Draft.toDraft_of_build source'.built]
  simp only [plain, completedPieces_empty, exists_and_left]
  constructor
  · intro written
    obtain ⟨pieces, found, shown⟩ := written
    exact ⟨pieces, found, (Schema.exists_shows_divided_iff legible source.built known found clear).mp shown⟩
  · intro written
    obtain ⟨pieces, found, shown⟩ := written
    exact ⟨pieces, found, (Schema.exists_shows_divided_iff legible source.built known found clear).mpr shown⟩

theorem encodes_divided_iff_joined_now : ∃ catalog joined divided whole parted, Catalog.ofLines ["action @b.say"] = .ok catalog ∧
    catalog.language false 1 = .ok joined ∧ catalog.language true 1 = .ok divided ∧
    ofLanguage joined linearConfig = .ok whole ∧ ofLanguage divided linearConfig = .ok parted ∧
    (∃ v, whole.encode [] "now => @b.say" = .ok v) ∧ ∃ v, parted.encode [] "now => @b.say" = .ok v := by
  have checked : (ofLines? ["action @b.say"] false 1 linearConfig).bind (fun whole =>
      (ofLines? ["action @b.say"] true 1 linearConfig).map fun _ => (whole.encode [] "now => @b.say").toOption.isSome) =
      some true := by decide +kernel
  obtain ⟨whole, found, checked⟩ := Option.bind_eq_some_iff.mp checked
  obtain ⟨parted, found', written⟩ := Option.map_eq_some_iff.mp checked
  obtain ⟨catalog, joined, read, compiled, assembled⟩ := exists_language_of_lines found
  obtain ⟨_, divided, read', compiled', assembled'⟩ := exists_language_of_lines found'
  obtain rfl := Except.ok.inj (read.symm.trans read')
  obtain ⟨v, encoded⟩ := Option.isSome_iff_exists.mp written
  have encodes : ∃ v, whole.encode [] "now => @b.say" = .ok v := ⟨v, Grammar.eq_ok_of_toOption encoded⟩
  have clear : ∀ word ∈ unquoted false (Text.words "now => @b.say"), ¬ DeviceLike word := by decide +kernel
  exact ⟨catalog, joined, divided, whole, parted, read, compiled, compiled', assembled, assembled', encodes,
    (encodes_divided_iff_joined read compiled compiled' assembled assembled' [] "now => @b.say" clear).mpr encodes⟩

end Codec

end CommandLang
