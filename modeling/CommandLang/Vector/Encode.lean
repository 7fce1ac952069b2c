import CommandLang.Vector.Codec

/-! Writing programs as action vectors. Every action takes one slot, and a last slot accepts; fixed
terminals take none in a derivation, since the rules tell them. Side channels hold zero wherever
the action is not theirs. Numbers are written as 32-bit words. -/

namespace CommandLang

/-- The channels of a copy class: one-based bounds of spans, both inclusive. -/
structure CopySpans where
  first : List UInt32
  last : List UInt32
deriving DecidableEq, Repr

structure ActionVectors where
  actions : List UInt32
  /-- Places in the vocabularies of the extensible classes. -/
  values : OrderedMap String (List UInt32)
  spans : OrderedMap String CopySpans
  length : Nat
  truncated : Bool
deriving DecidableEq

def ActionVectors.empty : ActionVectors := ⟨[], ∅, ∅, 0, false⟩

structure Slot where
  action : UInt32
  payload : Payload
deriving DecidableEq, Repr

namespace Slot

def eos : Slot := ⟨UInt32.ofNat Token.eos, .none⟩

end Slot

def firstOccurrence (span : List String) : List String → Option Nat
  | [] => if span.isEmpty then some 0 else none
  | word :: rest =>
    if span.isPrefixOf (word :: rest) then some 0 else (firstOccurrence span rest).map (· + 1)

namespace Codec

variable (c : Codec)

/-- The one-based bounds of a span. One that is empty, absent or too far to the right is put at the
last position of the input. -/
def locate (sentence span : List String) : Nat × Nat :=
  let last := c.config.maxInputLength - 1
  if span.isEmpty then (last, last)
  else match firstOccurrence span sentence with
    | some start =>
      if start + span.length < c.config.maxInputLength then (start + 1, start + span.length)
      else (last, last)
    | none => (last, last)

def leaf (sentence : List String) (term : Term) : Leaf :=
  match term.value with
  | .none => ⟨term.token, .none⟩
  | .index place => ⟨term.token, .index place⟩
  | .words words =>
    let (first, last) := c.locate sentence words
    ⟨term.token, .span first last⟩

def slot? : Event → Option Slot
  | .reduce rule => some ⟨UInt32.ofNat (Token.controls + rule), .none⟩
  | .shift leaf => (c.tokenChannel? leaf.token).map fun
    | .copy number => ⟨UInt32.ofNat (c.copyBase + number), leaf.payload⟩
    | .value number => ⟨UInt32.ofNat (c.valueBase + number), leaf.payload⟩
  | .accept => none

/-- The slots of leaves, without the one that ends them. The leaves have to form a program. -/
def slots (leaves : List Leaf) : Except ParseError (List Slot) :=
  match c.config.direction with
  | .derivation order => do return (← c.automaton.parse order leaves).filterMap c.slot?
  | .linear => do
    let _ ← c.automaton.parse .bottomUp leaves
    return leaves.map fun leaf => ⟨UInt32.ofNat leaf.token, leaf.payload⟩

def placeEntry (number : Nat) (slot : Slot) : UInt32 :=
  match c.channel? slot.action, slot.payload with
  | some (.value other), .index place => if other = number then UInt32.ofNat place else 0
  | _, _ => 0

def spanEntry (number : Nat) (slot : Slot) : UInt32 × UInt32 :=
  match c.channel? slot.action, slot.payload with
  | some (.copy other), .span first last =>
    if other = number then (UInt32.ofNat first, UInt32.ofNat last) else (0, 0)
  | _, _ => (0, 0)

def truncate (maxLength : Option Nat) (slots : List Slot) : List Slot × Bool :=
  match maxLength with
  | some length =>
    if length < slots.length then (slots.take (length - 1) ++ [.eos], true) else (slots, false)
  | none => (slots, false)

def layOut (slots : List Slot) (truncated : Bool) : ActionVectors :=
  let width := c.config.maxLength.getD slots.length
  let channel (entry : Slot → UInt32) : List UInt32 := (slots.map entry).rightpad width 0
  { actions := channel (·.action)
    values := .ofList (c.values.zipIdx.map fun (declared, number) =>
      (declared.name, channel (c.placeEntry number)))
    spans := .ofList (c.copies.zipIdx.map fun (declared, number) =>
      (declared.name, ⟨channel fun slot => (c.spanEntry number slot).1,
        channel fun slot => (c.spanEntry number slot).2⟩))
    length := slots.length
    truncated }

/-- Writes a program. Copied spans are looked up in the sentence. -/
def encode (sentence : List String) (program : String) : Except CodecError ActionVectors := do
  let terms ← (c.vocabulary.terms program).mapError .vocabulary
  let slots ← (c.slots (terms.map (c.leaf sentence))).mapError .parse
  let (slots, truncated) := truncate c.config.maxLength (slots ++ [.eos])
  return c.layOut slots truncated

end Codec

end CommandLang
