import CommandLang.Grammar.Validity

/-! Grammars whose symbols are numbers. Nonterminals count from zero in the order of their rules;
terminals count from the first number that is not a control token, in the order of their first use,
and declared classes that no rule uses come last. -/

namespace CommandLang

namespace Token

def pad : Nat := 0

/-- The end of a sequence, and what the automaton sees behind the last token. -/
def eos : Nat := 1

def start : Nat := 2

def controlNames : List String := ["<pad>", "</s>", "<s>"]

def controls : Nat := 3

end Token

structure Rule where
  lhs : Nat
  rhs : List (Symbol Nat Nat)
deriving DecidableEq, Repr

structure Numbered where
  rules : Array Rule
  start : Nat
  names : Array String
  /-- The terminals, from the first number after the control tokens. -/
  terminals : Array Terminal
  /-- The vocabulary size of each extensible token, in the order of declaration. -/
  vocabulary : List (Nat × Nat)
deriving DecidableEq

namespace Numbered

variable (g : Numbered)

def tokenCount : Nat := Token.controls + g.terminals.size

def terminal? (token : Nat) : Option Terminal :=
  if token < Token.controls then none else g.terminals[token - Token.controls]?

def token? (terminal : Terminal) : Option Nat :=
  (g.terminals.toList.idxOf? terminal).map (Token.controls + ·)

def vocabularySize (token : Nat) : Nat := (g.vocabulary.lookup token).getD 0

def tokenName (token : Nat) : String :=
  match Token.controlNames[token]? with
  | some name => name
  | none => ((g.terminal? token).map Terminal.name).getD "?"

def nonterminalName (number : Nat) : String := g.names[number]?.getD "?"

def symbolName : Symbol Nat Nat → String
  | .terminal token => g.tokenName token
  | .nonterminal number => g.nonterminalName number

/-- Symbols with a blank before each, and a dot before the symbol at place `dot`. -/
def symbolsText : Option Nat → List (Symbol Nat Nat) → String
  | dot, [] => if dot = some 0 then " ." else ""
  | some 0, symbol :: rest => " . " ++ g.symbolName symbol ++ symbolsText none rest
  | some (place + 1), symbol :: rest => " " ++ g.symbolName symbol ++ symbolsText (some place) rest
  | none, symbol :: rest => " " ++ g.symbolName symbol ++ symbolsText none rest

/-- A rule as `lhs -> symbols`, with a dot if its place is given. A rule that does not exist is empty. -/
def dottedText (rule : Nat) (dot : Option Nat) : String :=
  match g.rules[rule]? with
  | some rule => g.nonterminalName rule.lhs ++ " ->" ++ g.symbolsText dot rule.rhs
  | none => ""

def ruleText (rule : Nat) : String := g.dottedText rule none

/-- Whether a nonterminal keeps its name. A name that is given again is taken away from whatever had it. -/
def keepsName (number : Nat) : Bool :=
  match g.names.toList.drop number with
  | name :: later => !later.contains name
  | [] => false

def acceptName : String := "$accept"

/-- Adds, as last rule and last nonterminal, a new start symbol that derives the old one followed by
the end of the sequence. -/
def augment : Numbered where
  rules := g.rules.push ⟨g.names.size, [.nonterminal g.start, .terminal Token.eos]⟩
  start := g.names.size
  names := g.names.push acceptName
  terminals := g.terminals
  vocabulary := g.vocabulary

end Numbered

namespace Draft

def terminals (d : Draft) : List Terminal :=
  let used := d.ruleList.flatMap fun (_, rhs) => rhs.filterMap Symbol.terminal?
  (used ++ d.extensible.keys.map Terminal.extensible ++ d.copy.keys.map Terminal.copy).eraseDups

/-- The numbers that rules of each nonterminal take, as first number and first number after. -/
def ruleRanges (d : Draft) : List (Nat × Nat) :=
  let before (i : Nat) : Nat := (d.rules.values.take i).flatten.length
  (List.range d.rules.values.length).map fun i => (before i, before (i + 1))

end Draft

def Symbol.number (names : List String) (terminals : List Terminal) :
    Symbol Terminal String → Symbol Nat Nat
  | .terminal symbol => .terminal (Token.controls + terminals.idxOf symbol)
  | .nonterminal name => .nonterminal (names.idxOf name)

def Grammar.number (g : Grammar) : Numbered :=
  let names := g.rules.keys
  let terminals := g.terminals
  { rules := (g.ruleList.map fun (lhs, rhs) =>
      { lhs := names.idxOf lhs, rhs := rhs.map (Symbol.number names terminals) }).toArray
    start := names.idxOf g.start
    names := names.toArray
    terminals := terminals.toArray
    vocabulary := g.extensible.entries.map fun (name, vocabulary) =>
      (Token.controls + terminals.idxOf (.extensible name), vocabulary.length) }

end CommandLang
