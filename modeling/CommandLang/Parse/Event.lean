import CommandLang.Automaton.Build

/-! Derivations as sequences of events. A leaf is a token with what it carries; an event shifts a
leaf, reduces a rule or accepts. The events of a derivation come in one of two orders. -/

namespace CommandLang

inductive Payload where
  | none
  /-- A place in the vocabulary of an extensible class. -/
  | index (place : Nat)
  /-- The first and last position of a span that is copied from the input. -/
  | span (first last : Nat)
deriving DecidableEq, Repr

structure Leaf where
  token : Nat
  payload : Payload
deriving DecidableEq, Repr

inductive Event where
  | shift (leaf : Leaf)
  | reduce (rule : Nat)
  | accept
deriving DecidableEq, Repr

/-- Bottom-up puts a rule behind the events of its children, top-down before them. -/
inductive Order where
  | bottomUp | topDown
deriving DecidableEq, Repr

def tokenText (token : Nat) : String := "#" ++ toString token

namespace Automaton

variable (a : Automaton)

/-- Whether a leaf carries what its terminal asks for. -/
def payloadFits (leaf : Leaf) : Bool :=
  match a.grammar.terminal? leaf.token, leaf.payload with
  | some (.fixed _), .none => true
  | some (.extensible _), .index place => place < a.grammar.vocabularySize leaf.token
  | some (.copy _), .span first last => first ≤ last
  | _, _ => false

def knows (token : Nat) : Bool := (a.grammar.terminal? token).isSome

end Automaton

def Numbered.isFixed (g : Numbered) (token : Nat) : Bool :=
  match g.terminal? token with
  | some (.fixed _) => true
  | _ => false

end CommandLang
