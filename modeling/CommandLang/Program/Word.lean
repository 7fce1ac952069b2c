import CommandLang.Text.Words

/-! Programs as sequences of words. A span that was copied from a sentence is a part of the program
by its position as long as the sentence is not at hand. -/

namespace CommandLang

inductive ProgramWord where
  | word (text : String)
  /-- A span of the sentence from position `first` to position `last`, counted from zero. -/
  | span (className : String) (first last : Nat)
deriving DecidableEq, Repr

def ProgramWord.text : ProgramWord → String
  | word text => text
  | span className first last =>
    className ++ "[" ++ toString first ++ "..=" ++ toString last ++ "]"

def ProgramWord.word? : ProgramWord → Option String
  | word text => some text
  | span _ _ _ => none

def programText (program : List ProgramWord) : String :=
  " ".intercalate (program.map ProgramWord.text)

end CommandLang
