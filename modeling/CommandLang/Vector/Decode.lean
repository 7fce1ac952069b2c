import CommandLang.Vector.Encode

/-! Reading action vectors. The actions up to the first that accepts, with their side channels, have
to describe a derivation; the program is spelled from its leaves. -/

namespace CommandLang

namespace Codec

variable (c : Codec)

/-- The leaf of an action, with what its channel holds at a position. Bounds of spans become
zero-based. -/
def carried (v : ActionVectors) (position : Nat) (action : UInt32) : Channel → Except CodecError Leaf
  | .copy number =>
    let entry := do
      let channel ← c.copies[number]?
      let spans ← v.spans.get? channel.name
      return (channel.token, ← spans.first[position]?, ← spans.last[position]?)
    match entry with
    | some (token, first, last) =>
      if 1 ≤ first ∧ first ≤ last then .ok ⟨token, .span (first.toNat - 1) (last.toNat - 1)⟩
      else .error (.malformedPayload position action)
    | none => .error (.malformedPayload position action)
  | .value number =>
    let entry := do
      let channel ← c.values[number]?
      let places ← v.values.get? channel.name
      return (channel.token, ← places[position]?)
    match entry with
    | some (token, place) => .ok ⟨token, .index place.toNat⟩
    | none => .error (.malformedPayload position action)

/-- The events of actions from a position on, up to the first that accepts. A number behind the last
action is read as a rule, which does not exist. -/
def eventsFrom (v : ActionVectors) (position : Nat) : List UInt32 → Except CodecError (List Event)
  | [] => .ok []
  | action :: rest =>
    match c.kind action with
    | .pad | .eos => .ok [.accept]
    | .start | .token _ => .error (.invalidAction position action)
    | .reduce rule => do return .reduce rule :: (← eventsFrom v (position + 1) rest)
    | .invalid => do
      return .reduce (action.toNat - Token.controls) :: (← eventsFrom v (position + 1) rest)
    | .copy number => do
      let leaf ← c.carried v position action (.copy number)
      return .shift leaf :: (← eventsFrom v (position + 1) rest)
    | .value number => do
      let leaf ← c.carried v position action (.value number)
      return .shift leaf :: (← eventsFrom v (position + 1) rest)

def leavesFrom (v : ActionVectors) (position : Nat) : List UInt32 → Except CodecError (List Leaf)
  | [] => .ok []
  | action :: rest =>
    match c.kind action with
    | .pad | .eos => .ok []
    | .token token =>
      match c.tokenChannel? token with
      | some channel => do
        let leaf ← c.carried v position action channel
        return leaf :: (← leavesFrom v (position + 1) rest)
      | none => do return ⟨token, .none⟩ :: (← leavesFrom v (position + 1) rest)
    | _ => .error (.invalidAction position action)

def leaves (v : ActionVectors) : Except CodecError (List Leaf) :=
  match c.config.direction with
  | .derivation order => do
    let events ← c.eventsFrom v 0 v.actions
    (c.automaton.replay order events).mapError .replay
  | .linear => do
    let leaves ← c.leavesFrom v 0 v.actions
    let _ ← (c.automaton.parse .bottomUp leaves).mapError .parse
    return leaves

def verify (v : ActionVectors) : Except CodecError Unit := (c.leaves v).map fun _ => ()

/-- The words from position `first` to position `last`, as far as there are any. -/
def slice (sentence : List String) (first last : Nat) : List String :=
  (sentence.take (last + 1)).drop first

/-- The words of one leaf. A span is cut out of the sentence, if there is one, and put between the
words that open and close it. -/
def spell (sentence : Option (List String)) (position : Nat) (leaf : Leaf) :
    Except CodecError (List ProgramWord) :=
  match c.tokenChannel? leaf.token, leaf.payload with
  | some (.value number), .index place =>
    match (c.values[number]?).bind (·.vocabulary[place]?) with
    | some word => .ok [.word word]
    | none =>
      .error (.malformedPayload position
        (UInt32.ofNat (if c.isLinear then leaf.token else c.valueBase + number)))
  | some (.copy number), .span first last =>
    match c.copies[number]?, sentence with
    | some channel, some sentence =>
      .ok (.word channel.opening :: (slice sentence first last).map .word ++ [.word channel.closing])
    | some channel, none => .ok [.span channel.name first last]
    | none, _ => .ok []
  | _, _ => .ok [.word (c.automaton.grammar.tokenName leaf.token)]

def decodeStrictly (sentence : Option (List String)) (v : ActionVectors) :
    Except CodecError (List ProgramWord) := do
  let leaves ← c.leaves v
  let words ← leaves.zipIdx.mapM fun (leaf, position) => c.spell sentence position leaf
  return c.vocabulary.dropDevices words.flatten

/-- Reads a program. Without a sentence copied spans are given by their positions. -/
def decode (sentence : Option (List String)) (v : ActionVectors) : Except CodecError (List ProgramWord) :=
  match c.decodeStrictly sentence v with
  | .error fault => if c.config.ignoreErrors && fault.isStructural then .ok [] else .error fault
  | .ok program => .ok program

end Codec

end CommandLang
