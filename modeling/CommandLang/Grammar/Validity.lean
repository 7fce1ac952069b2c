import CommandLang.Grammar.Basic

/-! When a draft is a grammar. All faults of a draft are listed in the order in which they are
looked for; a grammar is a draft without any, and building one reports the first. -/

namespace CommandLang

inductive GrammarError where
  | missingStart (start : String)
  | undefinedNonterminal (name referencedBy : String)
  | undeclaredClass (name referencedBy : String)
  | classConflict (name : String)
  | emptyVocabulary (name : String)
deriving DecidableEq, Repr

def GrammarError.message : GrammarError → String
  | missingStart start => "start nonterminal `" ++ start ++ "` has no productions"
  | undefinedNonterminal name referencedBy =>
    "nonterminal `" ++ name ++ "` is referenced by `" ++ referencedBy ++ "` but has no productions"
  | undeclaredClass name referencedBy =>
    "terminal class `" ++ name ++ "` is referenced by `" ++ referencedBy ++ "` but never declared"
  | classConflict name => "`" ++ name ++ "` is used as more than one kind of terminal"
  | emptyVocabulary name => "extensible terminal class `" ++ name ++ "` has an empty vocabulary"

namespace Draft

/-- What is wrong with one symbol in a rule of `lhs`. A fixed word may not be the name of a class,
because names have to tell terminals apart. -/
def symbolFault (d : Draft) (lhs : String) : Symbol Terminal String → Option GrammarError
  | .nonterminal name => if d.hasRules name then none else some (.undefinedNonterminal name lhs)
  | .terminal (.fixed text) =>
    if d.extensible.contains text || d.copy.contains text then some (.classConflict text) else none
  | .terminal (.extensible name) =>
    if d.extensible.contains name then none else some (.undeclaredClass name lhs)
  | .terminal (.copy name) =>
    if d.copy.contains name then none else some (.undeclaredClass name lhs)

/-- Every fault: the start symbol, then the classes, then the symbols rule by rule. -/
def faults (d : Draft) : List GrammarError :=
  (if d.hasRules d.start then [] else [.missingStart d.start]) ++
  (d.extensible.keys.filter d.copy.contains).map .classConflict ++
  (d.extensible.entries.filter (·.2.isEmpty)).map (.emptyVocabulary ·.1) ++
  d.ruleList.flatMap fun (lhs, rhs) => rhs.filterMap (d.symbolFault lhs)

end Draft

/-- A draft without faults: every name in it is defined, and no name is two kinds of terminal. -/
structure Grammar extends Draft where
  faultless : toDraft.faults = []

def Draft.build (d : Draft) : Except GrammarError Grammar :=
  match clean : d.faults with
  | [] => .ok ⟨d, clean⟩
  | fault :: _ => .error fault

end CommandLang
