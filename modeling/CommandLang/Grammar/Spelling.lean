import CommandLang.Grammar.Validity

/-! Grammars with every class spelled out. Each extensible or copied terminal becomes a nonterminal
with one rule for each word that may stand for it, so only fixed words are left. -/

namespace CommandLang

def classNonterminal (name : String) : String := "$terminal_" ++ name

def Symbol.spellOut : Symbol Terminal String → Symbol Terminal String
  | .terminal (.extensible name) => .nonterminal (classNonterminal name)
  | .terminal (.copy name) => .nonterminal (classNonterminal name)
  | symbol => symbol

namespace Draft

/-- The words of every class: vocabularies first, then placeholders. -/
def classWords (d : Draft) : List (String × List String) :=
  d.extensible.entries ++ d.copy.entries.map fun (name, declaration) => (name, declaration.placeholders)

def spelledRules (d : Draft) : List (String × Rhs) :=
  (d.ruleList.map fun (lhs, rhs) => (lhs, rhs.map Symbol.spellOut)) ++
  d.classWords.flatMap fun (name, words) =>
    words.map fun word => (classNonterminal name, [.word word])

end Draft

/-- The grammar over fixed words alone. It does not exist if a rule refers to a copy class without
placeholders, which leaves a nonterminal without rules. -/
def Grammar.spellOut (g : Grammar) : Except GrammarError Grammar :=
  ((Draft.empty g.start).addRules g.spelledRules).build

end CommandLang
