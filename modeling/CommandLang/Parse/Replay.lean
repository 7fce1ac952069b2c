import CommandLang.Parse.Event

/-! Reading a sequence back from the events of its derivation. The events are followed from the root
of the derivation: bottom-up events from the last to the first, top-down events as they are. A
stack holds the symbols that are still to be derived, the next one first. Fixed terminals are known
from the rules, so their events may be missing. -/

namespace CommandLang

inductive ReplayError where
  | ruleOutOfRange (position rule : Nat)
  | mismatchedReduce (position : Nat) (rule expected : String)
  | unexpectedShift (position token : Nat) (expected : String)
  | expectedShift (position : Nat) (expected : String)
  | malformedPayload (position token : Nat)
  | unknownToken (position token : Nat)
  | prematureAccept (position : Nat)
  | missingAccept
  | trailingEvents (position : Nat)
deriving DecidableEq, Repr

def ReplayError.message : ReplayError → String
  | ruleOutOfRange position rule =>
    "event " ++ toString position ++ " reduces rule " ++ toString rule ++ ", which does not exist"
  | mismatchedReduce position rule expected =>
    "event " ++ toString position ++ " reduces `" ++ rule ++ "` where `" ++ expected ++ "` is expected"
  | unexpectedShift position token expected =>
    "event " ++ toString position ++ " shifts " ++ tokenText token ++ " where " ++ expected ++
      " is expected"
  | expectedShift position expected =>
    "event " ++ toString position ++ " reduces where a shift of `" ++ expected ++ "` is expected"
  | malformedPayload position token =>
    "payload of event " ++ toString position ++ " does not match token " ++ tokenText token
  | unknownToken position token =>
    "event " ++ toString position ++ " shifts unknown token " ++ tokenText token
  | prematureAccept position =>
    "accepted at event " ++ toString position ++ " before the derivation is complete"
  | missingAccept => "event sequence does not accept"
  | trailingEvents position =>
    "event " ++ toString position ++ " and the events after it are not part of the derivation"

namespace Numbered

variable (g : Numbered)

/-- Takes fixed terminals off the stack, up to the one with number `stop`. -/
def supply (stop : Option Nat) : NumberedSymbols → List Leaf × NumberedSymbols
  | .terminal token :: rest =>
    if g.isFixed token && stop ≠ some token then
      let (leaves, rest) := supply stop rest
      (⟨token, .none⟩ :: leaves, rest)
    else ([], .terminal token :: rest)
  | stack => ([], stack)

end Numbered

namespace Automaton

variable (a : Automaton)

def children (order : Order) (rule : Rule) : NumberedSymbols :=
  match order with
  | .bottomUp => rule.rhs.reverse
  | .topDown => rule.rhs

def replayReduce (order : Order) (position rule expected : Nat) : Except ReplayError NumberedSymbols :=
  match a.grammar.rules[rule]? with
  | none => .error (.ruleOutOfRange position rule)
  | some production =>
    if production.lhs = expected then .ok (children order production)
    else .error (.mismatchedReduce position (a.grammar.ruleText rule) (a.grammar.nonterminalName expected))

/-- Follows one event: the leaves that it settles, and the stack behind it. -/
def replayEvent (order : Order) (position : Nat) (event : Event) (stack : NumberedSymbols) :
    Except ReplayError (List Leaf × NumberedSymbols) :=
  match event with
  | .shift leaf =>
    if !a.knows leaf.token && (stack.head?.bind Symbol.terminal?).isSome then
      .error (.unknownToken position leaf.token)
    else
      let (fixed, stack) := a.grammar.supply (some leaf.token) stack
      match stack with
      | [] => .error (.trailingEvents position)
      | .nonterminal expected :: _ =>
        .error (.unexpectedShift position leaf.token (a.grammar.nonterminalName expected))
      | .terminal expected :: rest =>
        if leaf.token ≠ expected then
          .error (.unexpectedShift position leaf.token (a.grammar.tokenName expected))
        else if a.payloadFits leaf then .ok (fixed ++ [leaf], rest)
        else .error (.malformedPayload position leaf.token)
  | .reduce rule =>
    let (fixed, stack) := a.grammar.supply none stack
    match stack with
    | [] => .error (.trailingEvents position)
    | .terminal expected :: _ => .error (.expectedShift position (a.grammar.tokenName expected))
    | .nonterminal expected :: rest => do
      return (fixed, (← a.replayReduce order position rule expected) ++ rest)
  | .accept => .error (.trailingEvents position)

/-- Follows events with their positions: all leaves that they settle, and the stack behind them. -/
def replayEvents (order : Order) :
    List (Event × Nat) → NumberedSymbols → Except ReplayError (List Leaf × NumberedSymbols)
  | [], stack => .ok ([], stack)
  | (event, position) :: rest, stack => do
    let (leaves, stack) ← a.replayEvent order position event stack
    let (more, stack) ← replayEvents order rest stack
    return (leaves ++ more, stack)

/-- The sequence whose derivation is given by events that end with the only acceptance. -/
def replay (order : Order) (events : List Event) : Except ReplayError (List Leaf) :=
  match events.findIdx? (· = .accept) with
  | none => .error .missingAccept
  | some accepted =>
    if accepted + 1 < events.length then .error (.trailingEvents (accepted + 1))
    else do
      let body := (events.take accepted).zipIdx
      let followed := match order with
        | .bottomUp => body.reverse
        | .topDown => body
      let (leaves, stack) ← a.replayEvents order followed [.nonterminal a.grammar.start]
      let (fixed, stack) := a.grammar.supply none stack
      if stack.isEmpty then
        let leaves := leaves ++ fixed
        return match order with
          | .bottomUp => leaves.reverse
          | .topDown => leaves
      else .error (.prematureAccept accepted)

end Automaton

end CommandLang
