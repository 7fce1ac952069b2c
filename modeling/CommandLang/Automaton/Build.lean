import CommandLang.Automaton.Survey

/-! The automaton of a grammar: in each state a token is shifted, a rule is reduced, the input is
accepted, or there is an error. It exists if no state has two actions on one token and every state
has an action. Of several obstacles two reductions on a token come before a shift beside a
reduction, and both before a state without actions; within a kind the first state counts. -/

namespace CommandLang

inductive Action where
  | shift (state : Nat)
  | reduce (rule : Nat)
  | accept
  | error
deriving DecidableEq, Repr

/-- Why a grammar has no automaton. Items, tokens and rules are given as texts. -/
inductive BuildError where
  | shiftReduce (state : Nat) (items : List String) (token rule : String)
  | reduceReduce (state : Nat) (items : List String) (token first second : String)
  | deadState (state : Nat)
  /-- The added start symbol takes the name of a nonterminal, so that there are no sets for its rules and the construction
  breaks off. -/
  | nameTaken
deriving DecidableEq, Repr

namespace BuildError

def message : BuildError → String
  | shiftReduce state _ token _ => "shift-reduce conflict at state " ++ toString state ++ " on " ++ token
  | reduceReduce state _ token _ _ =>
    "reduce-reduce conflict at state " ++ toString state ++ " on " ++ token
  | deadState state => "state " ++ toString state ++ " has no action"
  | nameTaken => "key not found"

def itemLines (items : List String) : String :=
  String.join (items.map fun item => "  " ++ item ++ "\n")

def report : BuildError → String
  | shiftReduce state items token rule =>
    "shift-reduce conflict at state " ++ toString state ++ ":\n\n" ++ itemLines items ++
    "\nwhich can shift " ++ token ++ "\nor reduce by:\n\n  " ++ rule ++ "\n"
  | reduceReduce state items token first second =>
    "reduce-reduce conflict at state " ++ toString state ++ ":\n\n" ++ itemLines items ++
    "\nwhich can be reduced by:\n\n  " ++ first ++ "\n\nor:\n\n  " ++ second ++
    "\n\nwhen the lookahead is " ++ token ++ "\n"
  | deadState state => "state " ++ toString state ++ " has neither a shift nor a reduce\n"
  | nameTaken => nameTaken.message ++ "\n"

end BuildError

namespace Numbered

variable (g : Numbered)

def itemText (item : Item) : String := g.dottedText item.rule (some item.dot)

def clashError (clash : Clash) : BuildError :=
  .reduceReduce clash.state (clash.items.map g.itemText) (g.tokenName clash.token)
    (g.ruleText clash.first) (g.ruleText clash.second)

/-- The first obstacle in the rows of an augmented grammar, in which no reductions clash. -/
def obstacle? (rows : List Row) : Option BuildError :=
  let numbered := rows.zipIdx
  (numbered.findSome? fun (row, state) => row.shiftReduce?.map fun (token, rule) =>
      .shiftReduce state (row.items.map g.itemText) (g.tokenName token) (g.ruleText rule)).or <|
  numbered.findSome? fun (row, state) => if row.hasAction then none else some (.deadState state)

end Numbered

/-- A grammar with the states of its automaton. State zero is the first. -/
structure Automaton where
  grammar : Numbered
  rows : Array Row

namespace Automaton

variable (a : Automaton)

def action (state token : Nat) : Action :=
  match a.rows[state]? with
  | none => .error
  | some row =>
    match row.shift? token with
    | some next => .shift next
    | none =>
      match row.reduce? token with
      | some rule => if rule = a.grammar.rules.size then .accept else .reduce rule
      | none => .error

def goto (state nonterminal : Nat) : Option Nat := (a.rows[state]?).bind (·.goto? nonterminal)

def stateCount : Nat := a.rows.size

def ruleCount : Nat := a.grammar.rules.size

end Automaton

def Grammar.automaton (g : Grammar) : Except BuildError Automaton :=
  let numbered := g.number
  let augmented := numbered.augment
  match augmented.lookahead? with
  | none => .error .nameTaken
  | some ahead =>
    match (augmented.blueprintWith ahead).survey with
    | .error clash => .error (augmented.clashError clash)
    | .ok survey =>
      match augmented.obstacle? survey.rows.toList with
      | some error => .error error
      | none => .ok ⟨numbered, survey.rows⟩

end CommandLang
