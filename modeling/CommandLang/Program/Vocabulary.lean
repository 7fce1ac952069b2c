import CommandLang.Grammar.Numbered
import CommandLang.Program.Word

/-! What the words of a program stand for. A word that opens a span takes all words up to the closing
one with it; any other word is a fixed terminal, a value of an extensible class, or a placeholder of
a copy class, in this order. Where functions are spelled with their devices, a program may leave the
device of a function out. -/

namespace CommandLang

inductive TermValue where
  | none
  /-- A place in the vocabulary of an extensible class. -/
  | index (place : Nat)
  /-- The words of a span, which are still to be found in a sentence. -/
  | words (words : List String)
deriving DecidableEq, Repr

structure Term where
  token : Nat
  value : TermValue
deriving DecidableEq, Repr

inductive VocabularyError where
  | unknownWord (word : String)
  | unterminatedSpan (opening : String)
deriving DecidableEq, Repr

/-- The words of a grammar. Where a word has two meanings of one kind, the first entry counts. -/
structure Vocabulary where
  fixed : List (String × Nat)
  values : List (String × Nat × Nat)
  /-- The token and the closing word of each word that opens a span. -/
  openings : List (String × Nat × String)
  /-- The token of each placeholder of a copy class. -/
  placeholders : List (String × Nat)
  /-- The device word that has to stand before a function word. -/
  devices : OrderedMap String String

structure OpenSpan where
  token : Nat
  opening : String
  closing : String
  content : List String

namespace Vocabulary

/-- The words of a numbered grammar, of which `draft` declares the classes. Later classes and later
values come first. -/
def ofGrammar (draft : Draft) (grammar : Numbered) (devices : OrderedMap String String) : Vocabulary :=
  let terminals := (grammar.terminals.toList.zipIdx Token.controls).reverse
  { fixed := terminals.filterMap fun
      | (.fixed text, token) => some (text, token)
      | _ => none
    values := terminals.flatMap fun
      | (.extensible name, token) =>
        (((draft.extensible.get? name).getD []).zipIdx.map fun (word, place) => (word, token, place)).reverse
      | _ => []
    openings := terminals.filterMap fun
      | (.copy name, token) =>
        (draft.copy.get? name).map fun declaration => (declaration.opening, token, declaration.closing)
      | _ => none
    placeholders := terminals.flatMap fun
      | (.copy name, token) =>
        ((draft.copy.get? name).map fun declaration =>
          declaration.placeholders.map (·, token)).getD []
      | _ => []
    devices }

variable (v : Vocabulary)

def classify (word : String) : Except VocabularyError Term :=
  match v.fixed.lookup word with
  | some token => .ok ⟨token, .none⟩
  | none =>
    match v.values.lookup word with
    | some (token, place) => .ok ⟨token, .index place⟩
    | none =>
      match v.placeholders.lookup word with
      | some token => .ok ⟨token, .words [word]⟩
      | none => .error (.unknownWord word)

/-- The device that a word asks for, unless the token before the word is that device. -/
def missingDevice (last : Option Nat) (word : String) : Except VocabularyError (List Term) :=
  match v.devices.get? word with
  | none => .ok []
  | some device =>
    match v.fixed.lookup device with
    | none => .error (.unknownWord device)
    | some token => .ok (if last = some token then [] else [⟨token, .none⟩])

/-- The terms of words, inside a span or not, behind a term with token `last`. -/
def termsFrom : Option OpenSpan → (last : Option Nat) → List String → Except VocabularyError (List Term)
  | none, _, [] => .ok []
  | some span, _, [] => .error (.unterminatedSpan span.opening)
  | some span, last, word :: rest =>
    if word = span.closing then do
      return ⟨span.token, .words span.content⟩ :: (← termsFrom none (some span.token) rest)
    else termsFrom (some { span with content := span.content ++ [word] }) last rest
  | none, last, word :: rest =>
    match v.openings.lookup word with
    | some (token, closing) => termsFrom (some ⟨token, word, closing, []⟩) last rest
    | none => do
      let device ← v.missingDevice last word
      let term ← v.classify word
      return device ++ term :: (← termsFrom none (some term.token) rest)

def terms (program : String) : Except VocabularyError (List Term) :=
  v.termsFrom none none (Text.words program)

/-- Puts a word behind a program whose latest word is first; its device makes way for a function. -/
def absorb (program : List ProgramWord) (word : ProgramWord) : List ProgramWord :=
  match word.word?.bind v.devices.get? with
  | none => word :: program
  | some device => if program.head? = some (.word device) then word :: program.tail else word :: program

/-- A program without the devices that stand directly before their functions. -/
def dropDevices (program : List ProgramWord) : List ProgramWord :=
  (program.foldl v.absorb []).reverse

end Vocabulary

end CommandLang
