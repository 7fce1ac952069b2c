import CommandLang.Grammar.Spelling
import CommandLang.Parse.Replay
import CommandLang.Parse.Run
import CommandLang.Program.Vocabulary
import CommandLang.Schema.Language

/-! Codecs between programs and action vectors. The actions of a derivation are numbered as

```text
<pad> </s> <s> | reduce 0 .. | copy class 0 .. | extensible class 0 ..
```

with the classes in the order of their names. Copied spans and values of extensible classes stand in
side channels next to their actions. In the linear direction the actions are the tokens of the
program themselves, with the same side channels. -/

namespace CommandLang

inductive Direction where
  | derivation (order : Order)
  /-- The tokens of the program, parsed again when they are read. -/
  | linear
deriving DecidableEq, Repr

structure CodecConfig where
  /-- Whether classes are spelled out as fixed words. -/
  flatten : Bool
  /-- The width of vectors, which are as long as needed if there is none. -/
  maxLength : Option Nat
  /-- The number of values of a span bound. -/
  maxInputLength : Nat
  direction : Direction
  /-- Whether malformed vectors are read as empty programs. -/
  ignoreErrors : Bool
deriving DecidableEq, Repr

def defaultMaxInputLength : Nat := 60

inductive ConfigFault where
  | zeroLength
  | shortInput
deriving DecidableEq, Repr

def ConfigFault.message : ConfigFault → String
  | zeroLength => "max_length must be positive"
  | shortInput => "max_input_length must be at least 2"

def CodecConfig.fault? (config : CodecConfig) : Option ConfigFault :=
  if config.maxLength = some 0 then some .zeroLength
  else if config.maxInputLength < 2 then some .shortInput
  else none

inductive CodecError where
  | vocabulary (fault : VocabularyError)
  | parse (fault : ParseError)
  | replay (fault : ReplayError)
  | invalidAction (position : Nat) (action : UInt32)
  | malformedPayload (position : Nat) (action : UInt32)
  | invalidPrediction (text : String)
  | config (fault : ConfigFault)
  | build (fault : BuildError)
  | grammar (fault : GrammarError)
deriving DecidableEq, Repr

namespace CodecError

def message : CodecError → String
  | vocabulary (.unknownWord word) => "unknown program token `" ++ word ++ "`"
  | vocabulary (.unterminatedSpan opening) => "span opened by `" ++ opening ++ "` is never closed"
  | parse fault => fault.message
  | replay fault => fault.message
  | invalidAction position action =>
    "invalid action " ++ toString action.toNat ++ " at position " ++ toString position
  | malformedPayload position action =>
    "channels of action " ++ toString action.toNat ++ " at position " ++ toString position ++
      " hold no valid value"
  | invalidPrediction text => "invalid prediction `" ++ text ++ "`"
  | config fault => "invalid codec configuration: " ++ fault.message
  | build fault => fault.message
  | grammar fault => fault.message

/-- Whether the cause is a vector that no derivation has. -/
def isStructural : CodecError → Bool
  | parse _ | replay _ | invalidAction _ _ | malformedPayload _ _ => true
  | _ => false

end CodecError

/-- A copy class with its token; its channels hold the two bounds of spans. -/
structure CopyChannel where
  name : String
  token : Nat
  opening : String
  closing : String
deriving DecidableEq, Repr

/-- An extensible class with its token; its channel holds places in the vocabulary. -/
structure ValueChannel where
  name : String
  token : Nat
  vocabulary : List String
deriving DecidableEq, Repr

/-- A side channel, by its number among those of its kind. -/
inductive Channel where
  | copy (number : Nat)
  | value (number : Nat)
deriving DecidableEq, Repr

structure Codec where
  automaton : Automaton
  vocabulary : Vocabulary
  config : CodecConfig
  /-- The copy classes in the order of their names. -/
  copies : List CopyChannel
  /-- The extensible classes in the order of their names. -/
  values : List ValueChannel

inductive ActionKind where
  | pad
  | eos
  | start
  | reduce (rule : Nat)
  | copy (number : Nat)
  | value (number : Nat)
  | token (token : Nat)
  | invalid
deriving DecidableEq, Repr

namespace Codec

def copyChannels (draft : Draft) (grammar : Numbered) : List CopyChannel :=
  (grammar.terminals.toList.zipIdx Token.controls).filterMap fun
    | (.copy name, token) => (draft.copy.get? name).map fun declaration =>
      ⟨name, token, declaration.opening, declaration.closing⟩
    | _ => none

def valueChannels (draft : Draft) (grammar : Numbered) : List ValueChannel :=
  (grammar.terminals.toList.zipIdx Token.controls).filterMap fun
    | (.extensible name, token) => (draft.extensible.get? name).map fun vocabulary =>
      ⟨name, token, vocabulary⟩
    | _ => none

/-- The codec over an automaton, which is that of `grammar`. -/
def assemble (language : Language) (config : CodecConfig) (grammar : Grammar)
    (automaton : Automaton) : Codec where
  automaton
  config
  vocabulary := .ofGrammar grammar.toDraft automaton.grammar language.deviceWords
  copies := sortBy (fun a b => a.name < b.name) (copyChannels grammar.toDraft automaton.grammar)
  values := sortBy (fun a b => a.name < b.name) (valueChannels grammar.toDraft automaton.grammar)

def ofLanguage (language : Language) (config : CodecConfig) : Except CodecError Codec :=
  match config.fault? with
  | some fault => .error (.config fault)
  | none => do
    let grammar ←
      if config.flatten then language.grammar.spellOut.mapError .grammar else .ok language.grammar
    let automaton ← grammar.automaton.mapError .build
    return assemble language config grammar automaton

variable (c : Codec)

def isLinear : Bool := c.config.direction = .linear

def ruleCount : Nat := c.automaton.ruleCount

def copyBase : Nat := Token.controls + c.ruleCount

def valueBase : Nat := c.copyBase + c.copies.length

def actionCount : Nat :=
  if c.isLinear then c.automaton.grammar.tokenCount else c.valueBase + c.values.length

def kind (action : UInt32) : ActionKind :=
  let number := action.toNat
  if number = Token.pad then .pad
  else if number = Token.eos then .eos
  else if number = Token.start then .start
  else if c.isLinear then (if number < c.actionCount then .token number else .invalid)
  else if number < c.copyBase then .reduce (number - Token.controls)
  else if number < c.valueBase then .copy (number - c.copyBase)
  else if number < c.actionCount then .value (number - c.valueBase)
  else .invalid

def tokenChannel? (token : Nat) : Option Channel :=
  match c.copies.findIdx? (·.token = token) with
  | some number => some (.copy number)
  | none => (c.values.findIdx? (·.token = token)).map .value

def channel? (action : UInt32) : Option Channel :=
  match c.kind action with
  | .copy number => some (.copy number)
  | .value number => some (.value number)
  | .token token => c.tokenChannel? token
  | _ => none

def channelSizes : List (String × Nat) :=
  (OrderedMap.ofList (
    [("actions", c.actionCount)] ++
    (c.values.map fun channel => (channel.name, 1 + channel.vocabulary.length)) ++
    c.copies.flatMap fun channel =>
      [("COPY_" ++ channel.name ++ "_begin", c.config.maxInputLength),
        ("COPY_" ++ channel.name ++ "_end", c.config.maxInputLength)])).entries

def describe (action : UInt32) : String :=
  match c.kind action with
  | .pad => "pad"
  | .eos => "accept"
  | .start => "start"
  | .reduce rule => "reduce " ++ c.automaton.grammar.ruleText rule
  | .copy number => "copy " ++ ((c.copies[number]?).map (·.name)).getD "?"
  | .value number => "shift " ++ ((c.values[number]?).map (·.name)).getD "?"
  | .token token => "token " ++ c.automaton.grammar.tokenName token
  | .invalid => "invalid"

def descriptions : List (UInt32 × String) :=
  (List.range c.actionCount).map fun number => (UInt32.ofNat number, c.describe (UInt32.ofNat number))

end Codec

end CommandLang
