import CommandLang.Proofs.Outline

/-! The outline of the languages of catalogs. All functions, parameters, types and constants of one sort are one symbol
each. Its rules depend on a single choice: whether there are parameters that are given values. -/

namespace CommandLang

namespace Pattern

/-- The sorts of nonterminals. -/
inductive Part where
  | accept | input | rule | special | stream | action | table | getQuery | queryFunction | queries | call | actionFunction | actions
  | constParam | passing | anyOutput | output | textOutput | listOutput | listsOutput | filter | orFilter | atomFilter
  | anyConstant | string | number | boolean | date | quantity | entity | simple | enumeration | list
deriving DecidableEq

/-- The sorts of terminals. Parameters are told apart by their types: texts, lists, lists of lists, and others. -/
inductive Role where
  | final | bookkeeping | special | answer | specialAnswer | arrow | now | notify | giveBack | monitor | opening | closing
  | attimer | time | equals | timer | base | comma | interval | query | action | device | param | textParam | listParam
  | listsParam | event | left | right | contains | operator | inRange | inArray | and | or | not | edge | on | filter | member
  | truth | dateEdge | unit | sign | place | mark | numberValue | dateValue | simpleValue | entityValue | durationValue | quote
deriving DecidableEq

abbrev word (role : Role) : Symbol Role Part := .terminal role

abbrev part (part : Part) : Symbol Role Part := .nonterminal part

abbrev Rule := Part × List (Symbol Role Part)

def forms : List (Symbol Role Part) :=
  [part .number, part .date, part .simple, part .quantity, part .entity, word .member, word .truth]

def commandRules : List Rule :=
  [(.accept, [part .input, word .final]),
    (.input, [part .rule]),
    (.input, [word .bookkeeping, word .special, part .special]),
    (.input, [word .bookkeeping, word .answer, part .anyConstant]),
    (.special, [word .specialAnswer]),
    (.rule, [part .stream, word .arrow, part .action]),
    (.rule, [word .now, word .arrow, part .action]),
    (.rule, [word .now, word .arrow, part .table, word .arrow, part .action]),
    (.action, [word .notify]),
    (.action, [word .giveBack]),
    (.action, [part .call]),
    (.call, [part .actionFunction]),
    (.table, [part .getQuery]),
    (.table, [word .opening, part .table, word .closing, word .filter, part .filter]),
    (.getQuery, [part .queryFunction]),
    (.stream, [word .monitor, word .opening, part .table, word .closing]),
    (.stream, [word .attimer, word .time, word .equals, part .simple]),
    (.stream, [word .timer, word .base, word .equals, part .date, word .comma, word .interval, word .equals, part .quantity]),
    (.stream, [word .edge, word .opening, part .stream, word .closing, word .on, part .filter])]

def functionWords : List Role := [.query, .action, .device]

/-- A word may be a function and also the device of another one. Where no parameter is given a value, it may even be a
query and an action. -/
def functionRules (giving : Bool) : List Rule :=
  ([(.queryFunction, [word .query]), (.queries, [word .query]), (.actionFunction, [word .action]),
    (.actions, [word .action])] : List Rule) ++
  (if giving then [] else [(.actionFunction, [word .query]), (.actions, [word .query])]) ++
  functionWords.flatMap fun role => [(.queryFunction, [word role, part .queries]), (.actionFunction, [word role, part .actions])]

def outputRules : List Rule :=
  [(.output, [word .param]), (.textOutput, [word .textParam]), (.listOutput, [word .listParam]),
    (.listsOutput, [word .listsParam]), (.anyOutput, [part .output]), (.anyOutput, [part .textOutput]),
    (.anyOutput, [part .listOutput]), (.anyOutput, [part .listsOutput])]

def givingRules : List Rule :=
  ([(.getQuery, [part .getQuery, part .constParam]),
    (.call, [part .call, part .constParam]),
    (.call, [part .call, part .passing]),
    (.constParam, [word .textParam, word .equals, part .string]),
    (.constParam, [word .listParam, word .equals, word .left, part .list, word .right]),
    (.passing, [word .textParam, word .equals, word .event]),
    (.passing, [word .textParam, word .equals, part .anyOutput]),
    (.passing, [word .param, word .equals, part .output]),
    (.passing, [word .listParam, word .equals, part .listOutput])] : List Rule) ++
  forms.map fun form => (.constParam, [word .param, word .equals, form])

def filterRules : List Rule :=
  ([(.filter, [part .orFilter]),
    (.filter, [part .filter, word .and, part .orFilter]),
    (.orFilter, [part .atomFilter]),
    (.orFilter, [word .not, part .atomFilter]),
    (.orFilter, [part .orFilter, word .or, part .atomFilter]),
    (.orFilter, [part .orFilter, word .or, word .not, part .atomFilter]),
    (.atomFilter, [part .textOutput, word .operator, part .string]),
    (.atomFilter, [part .textOutput, word .inArray, word .left, part .list, word .right]),
    (.atomFilter, [part .output, word .inArray, word .left, part .list, word .right]),
    (.atomFilter, [part .listsOutput, word .contains, part .list])] : List Rule) ++
  (part .string :: forms).map (fun form => (.atomFilter, [part .listOutput, word .contains, form])) ++
  forms.map (fun form => (.atomFilter, [part .output, word .operator, form])) ++
  [Part.number, .date, .simple, .quantity].map fun bound =>
    (.atomFilter, [part .output, word .inRange, word .left, part bound, word .comma, part bound, word .right])

def constantRules : List Rule :=
  ([(.string, [word .quote]),
    (.number, [word .numberValue]),
    (.boolean, [word .truth]),
    (.date, [word .dateValue]),
    (.date, [word .now]),
    (.date, [word .dateEdge, word .unit]),
    (.date, [part .date, word .sign, part .quantity]),
    (.quantity, [part .number, word .unit]),
    (.quantity, [word .durationValue]),
    (.entity, [word .entityValue]),
    (.entity, [part .string, word .mark]),
    (.simple, [word .simpleValue]),
    (.simple, [word .place]),
    (.enumeration, [word .member]),
    (.anyConstant, [part .string]),
    (.anyConstant, [part .number]),
    (.anyConstant, [part .boolean]),
    (.anyConstant, [part .date]),
    (.anyConstant, [part .quantity]),
    (.anyConstant, [part .entity]),
    (.anyConstant, [part .simple]),
    (.anyConstant, [word .member])] : List Rule) ++
  functionWords.map (fun role => (.entity, [word role])) ++
  (part .string :: forms).flatMap fun form => [(.list, [form]), (.list, [part .list, word .comma, form])]

def rules (giving : Bool) : List Rule :=
  commandRules ++ functionRules giving ++ outputRules ++ (if giving then givingRules else []) ++ filterRules ++ constantRules

def paramWords : List Role := [.param, .textParam, .listParam]

def streamWords : List Role := [.monitor, .attimer, .timer, .edge]

def dateWords : List Role := [.dateValue, .now, .dateEdge]

def first : Part → List Role
  | .accept | .input => [.bookkeeping, .now] ++ streamWords
  | .rule => .now :: streamWords
  | .special => [.specialAnswer]
  | .stream => streamWords
  | .action => [.notify, .giveBack] ++ functionWords
  | .table => .opening :: functionWords
  | .getQuery | .queryFunction | .call | .actionFunction => functionWords
  | .queries => [.query]
  | .actions => [.query, .action]
  | .constParam | .passing => paramWords
  | .anyOutput | .atomFilter => .listsParam :: paramWords
  | .output => [.param]
  | .textOutput => [.textParam]
  | .listOutput => [.listParam]
  | .listsOutput => [.listsParam]
  | .filter | .orFilter => [.not, .listsParam] ++ paramWords
  | .string => [.quote]
  | .number => [.numberValue]
  | .boolean => [.truth]
  | .enumeration => [.member]
  | .date => dateWords
  | .quantity => [.numberValue, .durationValue]
  | .entity => [.entityValue, .quote] ++ functionWords
  | .simple => [.simpleValue, .place]
  | .anyConstant | .list =>
    [.quote, .numberValue, .truth, .durationValue, .entityValue, .simpleValue, .place, .member] ++ functionWords ++ dateWords

/-- What can come behind a parameter that is given a value, if there are any. -/
def next (giving : Bool) : List Role := if giving then paramWords else []

def closers : List Role := [.arrow, .closing]

def valueEnds (giving : Bool) : List Role := [.final, .arrow, .closing, .and, .or, .comma, .right] ++ next giving

def behind (giving : Bool) : Part → List Role
  | .accept | .enumeration => []
  | .input | .rule | .special | .action | .anyConstant | .boolean => [.final]
  | .stream | .table => closers
  | .getQuery | .queryFunction | .queries => closers ++ next giving
  | .call | .actionFunction | .actions | .passing | .anyOutput => .final :: next giving
  | .constParam => .final :: closers ++ next giving
  | .output => [.final, .operator, .inRange, .inArray] ++ next giving
  | .textOutput => [.final, .operator, .inArray] ++ next giving
  | .listOutput | .listsOutput => [.final, .contains] ++ next giving
  | .filter => .and :: closers
  | .orFilter | .atomFilter => [.and, .or] ++ closers
  | .string => .mark :: valueEnds giving
  | .number => .unit :: valueEnds giving
  | .date | .quantity => .sign :: valueEnds giving
  | .entity | .simple => valueEnds giving
  | .list => [.and, .or, .comma, .right] ++ closers

abbrev Context := List (Option (Symbol Role Part))

def near (symbol : Symbol Role Part) : Context := [some symbol]

def valueContexts : List Context :=
  [near (word .equals), near (word .operator), near (word .contains), near (word .answer), near (word .left), near (word .comma)]

def filterContexts : List Context := [near (word .on), near (word .filter), near (word .and)]

def atomContexts : List Context := [near (word .not), near (word .or)] ++ filterContexts

def before : Part → List Context
  | .accept | .input | .rule => [[none]]
  | .special => [near (word .special)]
  | .stream => [[none], near (word .opening)]
  | .action | .call | .actionFunction => [near (word .arrow)]
  | .table | .getQuery | .queryFunction => [near (word .arrow), near (word .opening)]
  | .queries | .actions => [near (word .query), near (word .action), near (word .device)]
  | .constParam => [near (part .getQuery), near (part .call)]
  | .passing => [near (part .call)]
  | .anyOutput => [[some (word .equals), some (word .textParam)]]
  | .output | .textOutput | .listOutput | .listsOutput => near (word .equals) :: atomContexts
  | .filter => [near (word .on), near (word .filter)]
  | .orFilter => filterContexts
  | .atomFilter => atomContexts
  | .anyConstant | .boolean => [near (word .answer)]
  | .enumeration => []
  | .number | .quantity => near (word .sign) :: valueContexts
  | .string | .date | .entity | .simple => valueContexts
  | .list => [[some (word .left), some (word .equals)], [some (word .left), some (word .inArray)],
      [some (word .contains), some (part .listsOutput)]]

def code : Symbol Role Part → Nat
  | .terminal role => 2 * role.ctorIdx
  | .nonterminal part => 2 * part.ctorIdx + 1

def outline (giving : Bool) : Outline Role Part where
  rules := rules giving
  first := first
  behind := behind giving
  before := before
  code := code

set_option maxRecDepth 10000 in
theorem outline_sound (giving : Bool) : (outline giving).sound = true := by
  cases giving <;> decide +kernel

end Pattern

end CommandLang
