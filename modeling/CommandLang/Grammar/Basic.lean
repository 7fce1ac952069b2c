import CommandLang.OrderedMap

/-! Grammars of command languages. A terminal is a fixed word, a value of an extensible class with a
known vocabulary, or a span copied from the input sentence; rules are kept under their left-hand
sides in the order in which they were declared. -/

namespace CommandLang

inductive Symbol (τ ν : Type) where
  | terminal (symbol : τ)
  | nonterminal (symbol : ν)
deriving DecidableEq, Repr

def Symbol.terminal? {τ ν : Type} : Symbol τ ν → Option τ
  | .terminal symbol => some symbol
  | .nonterminal _ => none

def Symbol.nonterminal? {τ ν : Type} : Symbol τ ν → Option ν
  | .terminal _ => none
  | .nonterminal symbol => some symbol

/-- A terminal. The value or span of one use of a class is carried beside it. -/
inductive Terminal where
  | fixed (text : String)
  | extensible (name : String)
  | copy (name : String)
deriving DecidableEq, Repr

def Terminal.name : Terminal → String
  | fixed text => text
  | extensible name => name
  | copy name => name

namespace Symbol

abbrev word (text : String) : Symbol Terminal String := .terminal (.fixed text)

abbrev valueOf (name : String) : Symbol Terminal String := .terminal (.extensible name)

abbrev spanOf (name : String) : Symbol Terminal String := .terminal (.copy name)

end Symbol

abbrev Rhs := List (Symbol Terminal String)

/-- A class of copied spans. In a program such a span stands between `opening` and `closing`;
`placeholders` are the words that stand for whole spans. -/
structure CopyClass where
  opening : String
  closing : String
  placeholders : List String
deriving DecidableEq, Repr

/-- A grammar under construction: nothing is promised yet about the names in it. -/
structure Draft where
  start : String
  rules : OrderedMap String (List Rhs)
  extensible : OrderedMap String (List String)
  copy : OrderedMap String CopyClass
deriving DecidableEq

namespace Draft

def empty (start : String) : Draft := ⟨start, ∅, ∅, ∅⟩

def addRule (d : Draft) (lhs : String) (rhs : Rhs) : Draft :=
  { d with rules := d.rules.update lhs fun known =>
      let known := known.getD []
      if rhs ∈ known then known else known ++ [rhs] }

def addRules (d : Draft) (rules : List (String × Rhs)) : Draft :=
  rules.foldl (fun d (lhs, rhs) => d.addRule lhs rhs) d

def declareExtensible (d : Draft) (name : String) (vocabulary : List String) : Draft :=
  { d with extensible := d.extensible.insert name vocabulary }

def declareCopy (d : Draft) (name : String) (declaration : CopyClass) : Draft :=
  { d with copy := d.copy.insert name declaration }

def productions (d : Draft) (name : String) : List Rhs := (d.rules.get? name).getD []

def hasRules (d : Draft) (name : String) : Bool := !(d.productions name).isEmpty

def contains (d : Draft) (lhs : String) (rhs : Rhs) : Bool := rhs ∈ d.productions lhs

/-- All rules in order, each with its left-hand side. -/
def ruleList (d : Draft) : List (String × Rhs) :=
  d.rules.entries.flatMap fun (lhs, productions) => productions.map (lhs, ·)

def ruleCount (d : Draft) : Nat := d.ruleList.length

end Draft

end CommandLang
