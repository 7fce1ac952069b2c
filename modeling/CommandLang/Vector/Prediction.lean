import CommandLang.Text.Number
import CommandLang.Vector.Codec

/-! Short spellings of actions: `A` accepts, `G` starts, and a letter with a number is a rule (`R`), a
copy class (`C`), an extensible class (`S`) or, in the linear direction, a token (`T`). -/

namespace CommandLang

namespace Codec

variable (c : Codec)

def spelling (action : UInt32) : String :=
  match c.kind action with
  | .pad | .eos => "A"
  | .start => "G"
  | .reduce rule => "R" ++ toString rule
  | .copy number => "C" ++ toString number
  | .value number => "S" ++ toString number
  | .token token => "T" ++ toString token
  | .invalid =>
    if c.isLinear then "T" ++ toString action.toNat else "R" ++ toString (action.toNat - Token.controls)

/-- The number of the action with a spelling. Rules and tokens are not checked; classes have to exist. What is added to the
number of a rule is added in 64 bits, and the sum wraps round. -/
def actionNumber? (text : List Char) : Option Nat :=
  match text with
  | ['A'] => some Token.eos
  | ['G'] => some Token.start
  | letter :: digits =>
    if c.isLinear then (if letter = 'T' then Text.readNumber digits else none)
    else match letter with
      | 'R' => (Text.readNumber digits).map fun rule => (Token.controls + rule) % UInt64.size
      | 'C' => ((Text.readNumber digits).filter (· < c.copies.length)).map (c.copyBase + ·)
      | 'S' => ((Text.readNumber digits).filter (· < c.values.length)).map (c.valueBase + ·)
      | _ => none
  | [] => none

def readSpelling (text : String) : Except CodecError UInt32 :=
  match c.actionNumber? text.toList with
  | some number => if number < UInt32.size then .ok (UInt32.ofNat number) else .error (.invalidPrediction text)
  | none => .error (.invalidPrediction text)

def spellings (actions : List UInt32) : List String := actions.map c.spelling

def readSpellings (texts : List String) : Except CodecError (List UInt32) := texts.mapM c.readSpelling

end Codec

end CommandLang
