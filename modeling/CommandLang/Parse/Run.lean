import CommandLang.Parse.Event

/-! Running an automaton on a sequence of leaves. The leaves are checked first. Then the machine
acts on its state and the next token until it accepts or meets an error. Reductions consume
nothing, and on some grammars they go on for ever on one token; a run is given up once it has made
more reductions on one token than any run that ends. -/

namespace CommandLang

inductive ParseError where
  | unexpectedToken (position token state : Nat)
  | unknownToken (position token : Nat)
  | malformedPayload (position token : Nat)
  /-- Reductions that no other action ends. -/
  | endless (position token : Nat)
deriving DecidableEq, Repr

def ParseError.message : ParseError → String
  | unexpectedToken position token state =>
    "unexpected token " ++ tokenText token ++ " at position " ++ toString position ++
      " in state " ++ toString state
  | unknownToken position token =>
    "unknown token " ++ tokenText token ++ " at position " ++ toString position
  | malformedPayload position token =>
    "payload of token " ++ tokenText token ++ " at position " ++ toString position ++
      " does not match its terminal class"
  | endless position token =>
    "endless reductions on token " ++ tokenText token ++ " at position " ++ toString position

structure Config where
  /-- The states passed, the current one first and state zero last. -/
  stack : List Nat
  rest : List Leaf
  position : Nat
  /-- The events so far, the latest first. -/
  trace : List Event
deriving DecidableEq, Repr

namespace Config

def initial (leaves : List Leaf) : Config := ⟨[0], leaves, 0, []⟩

def state (c : Config) : Nat := c.stack.headD 0

def next (c : Config) : Leaf := c.rest.headD ⟨Token.eos, .none⟩

end Config

inductive Step where
  | shifted (c : Config)
  | reduced (c : Config)
  | accepted (c : Config)
  | rejected (error : ParseError)
deriving DecidableEq, Repr

namespace Automaton

variable (a : Automaton)

/-- The first leaf that is not what its token asks for; `position` is that of the first leaf. -/
def leafFault? (position : Nat) : List Leaf → Option ParseError
  | [] => none
  | leaf :: rest =>
    if !a.knows leaf.token then some (.unknownToken position leaf.token)
    else if !a.payloadFits leaf then some (.malformedPayload position leaf.token)
    else leafFault? (position + 1) rest

/-- Replaces the states of a rule's right-hand side by the one behind its left-hand side. -/
def reduce (c : Config) (rule : Nat) : Step :=
  let unexpected := ParseError.unexpectedToken c.position c.next.token c.state
  match a.grammar.rules[rule]? with
  | none => .rejected unexpected
  | some production =>
    let below := c.stack.drop production.rhs.length
    match a.goto (below.headD 0) production.lhs with
    | none => .rejected unexpected
    | some state => .reduced { c with stack := state :: below, trace := .reduce rule :: c.trace }

def step (c : Config) : Step :=
  match a.action c.state c.next.token with
  | .shift state =>
    .shifted ⟨state :: c.stack, c.rest.tail, c.position + 1, .shift c.next :: c.trace⟩
  | .reduce rule => a.reduce c rule
  | .accept => .accepted { c with trace := .accept :: c.trace }
  | .error => .rejected (.unexpectedToken c.position c.next.token c.state)

/-- Reduces until something else is done, `limit` times at most. -/
def settle : (limit : Nat) → Config → Step
  | 0, c => .reduced c
  | limit + 1, c =>
    match a.step c with
    | .reduced c => settle limit c
    | done => done

/-- More than the number of stacks that can come up while one token is looked at, if the reductions
end. A stack that grows by more than the number of states repeats a state above a part that is
never touched again, and from there on it would grow for ever. -/
def reductionLimit (c : Config) : Nat :=
  Nat.pow (a.stateCount + 1) (c.stack.length + a.stateCount + 1)

/-- Works through the leaves, one in each round. -/
def run : (rounds : Nat) → Config → Except ParseError (List Event)
  | 0, c => .error (.endless c.position c.next.token)
  | rounds + 1, c =>
    match a.settle (a.reductionLimit c) c with
    | .shifted c => run rounds c
    | .reduced c => .error (.endless c.position c.next.token)
    | .accepted c => .ok c.trace.reverse
    | .rejected error => .error error

/-- The events of the derivation of a sequence, every rule behind its children. -/
def parseBottomUp (leaves : List Leaf) : Except ParseError (List Event) :=
  match a.leafFault? 0 leaves with
  | some error => .error error
  | none => a.run (leaves.length + 1) (.initial leaves)

/-- Takes one event into listings of subtrees, the latest of which is first: a rule takes as many as
it has symbols and stands before them. -/
def gather (trees : List (List Event)) : Event → List (List Event)
  | .shift leaf => [.shift leaf] :: trees
  | .reduce rule =>
    let arity := ((a.grammar.rules[rule]?).map (·.rhs.length)).getD 0
    (.reduce rule :: (trees.take arity).reverse.flatten) :: trees.drop arity
  | .accept => trees

/-- The same derivation with every rule before its children. -/
def preorder (events : List Event) : List Event :=
  (events.foldl a.gather []).reverse.flatten ++ [.accept]

/-- The events of the derivation of a sequence. The end of the sequence is implied. -/
def parse (order : Order) (leaves : List Leaf) : Except ParseError (List Event) :=
  match order with
  | .bottomUp => a.parseBottomUp leaves
  | .topDown => (a.parseBottomUp leaves).map a.preorder

end Automaton

end CommandLang
