import CommandLang.Text.Cut

/-! Lines. A line ends with a line feed, which may follow a carriage return; neither belongs to the
line. What stands after the last line feed is a line of its own unless it is empty, and it keeps a
carriage return at its end. The rule serves characters and bytes alike. -/

namespace CommandLang.Text

variable {α : Type} [DecidableEq α]

/-- Every piece but the last had a line feed behind it, and may end with a carriage return. -/
def endLines (carriage : α) : List (List α) → List (List α)
  | [] => []
  | [last] => if last.isEmpty then [] else [last]
  | piece :: next :: rest => (stripLast carriage piece).getD piece :: endLines carriage (next :: rest)

def cutLines (feed carriage : α) (text : List α) : List (List α) :=
  endLines carriage (text.splitOnP (· = feed))

def lines (text : String) : List String :=
  (cutLines '\n' '\r' text.toList).map String.ofList

/-- The lines of a sequence of bytes; each may or may not be valid text. -/
def byteLines (bytes : ByteArray) : List ByteArray :=
  (cutLines 10 13 bytes.data.toList).map fun line => ⟨line.toArray⟩

example : lines "a\r\n\nb\r" = ["a", "", "b\r"] := by decide +kernel

example : lines "\n" = [""] := by decide +kernel

end CommandLang.Text
