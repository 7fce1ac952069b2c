import CommandLang.Text.Cut
import CommandLang.Text.Words

/-! The types of function parameters, how they are written, and which operators compare them.
Reading accepts short names for common kinds of entities and blanks around enum members; printing
gives one canonical text to each type. -/

namespace CommandLang

inductive ParamType where
  | string
  | number
  | boolean
  | date
  | time
  | currency
  | location
  /-- An entity of a kind such as `tt:username`. -/
  | entity (kind : String)
  /-- A quantity of a family of units, which has the name of its base unit. -/
  | measure (family : String)
  | enumeration (members : List String)
  | array (element : ParamType)
deriving DecidableEq, Repr

inductive Category where
  | array | enumeration | boolean | measure | entity | string | ordered | location
deriving DecidableEq, Repr

structure TypeError where
  text : String
deriving DecidableEq, Repr

def TypeError.message (error : TypeError) : String := "unknown type `" ++ error.text ++ "`"

namespace ParamType

def text : ParamType → String
  | string => "String"
  | number => "Number"
  | boolean => "Boolean"
  | date => "Date"
  | time => "Time"
  | currency => "Currency"
  | location => "Location"
  | entity kind => "Entity(" ++ kind ++ ")"
  | measure family => "Measure(" ++ family ++ ")"
  | enumeration members => "Enum(" ++ ",".intercalate members ++ ")"
  | array element => "Array(" ++ element.text ++ ")"

/-- The texts that stand for a type as a whole. -/
def named : List (String × ParamType) :=
  [("String", string), ("Number", number), ("Boolean", boolean), ("Bool", boolean), ("Date", date),
    ("Time", time), ("Currency", currency), ("Location", location),
    ("Username", entity "tt:username"), ("Hashtag", entity "tt:hashtag"),
    ("PhoneNumber", entity "tt:phone_number"), ("EmailAddress", entity "tt:email_address"),
    ("URL", entity "tt:url"), ("Picture", entity "tt:picture"), ("PathName", entity "tt:path_name")]

/-- The two parts of a text of the form `constructor(argument)`. -/
def application (text : List Char) : Option (List Char × List Char) :=
  (Text.stripLast ')' text).bind (Text.cutFirst '(')

theorem length_argument_lt {text constructor argument : List Char}
    (parts : application text = some (constructor, argument)) : argument.length < text.length := by
  obtain ⟨front, strip, cut⟩ := Option.bind_eq_some_iff.1 parts
  rw [Text.eq_of_stripLast strip, Text.eq_of_cutFirst cut]
  simp only [List.length_append, List.length_cons]
  omega

def members (argument : List Char) : Option (List String) :=
  let parts := (argument.splitOnP (· = ',')).map Text.trim
  if parts.any List.isEmpty then none else some (parts.map String.ofList)

def read (text : List Char) : Option ParamType :=
  match named.lookup (String.ofList text) with
  | some type => some type
  | none =>
    match _parts : application text with
    | none => none
    | some (constructor, argument) =>
      if argument.isEmpty then none
      else if constructor = "Array".toList then (read argument).map array
      else if constructor = "Entity".toList then some (entity (String.ofList argument))
      else if constructor = "Measure".toList then some (measure (String.ofList argument))
      else if constructor = "Enum".toList then (members argument).map enumeration
      else none
termination_by text.length
decreasing_by exact length_argument_lt _parts

def ofString (text : String) : Except TypeError ParamType :=
  match read text.toList with
  | some type => .ok type
  | none => .error ⟨text⟩

def category : ParamType → Category
  | array _ => .array
  | enumeration _ => .enumeration
  | boolean => .boolean
  | measure _ => .measure
  | entity _ => .entity
  | string => .string
  | number | currency | date | time => .ordered
  | location => .location

/-- The operators that compare values of a type. Arrays are only asked what they contain. -/
def operators (type : ParamType) : List String :=
  match type.category with
  | .array => ["contains"]
  | .enumeration | .boolean | .entity | .location => ["=="]
  | .string => ["==", "=~"]
  | .measure | .ordered => ["==", ">=", "<="]

def isOrdered (type : ParamType) : Bool :=
  match type.category with
  | .measure | .ordered => true
  | _ => false

def hasMembership (type : ParamType) : Bool :=
  match type.category with
  | .entity | .string => true
  | _ => false

def element : ParamType → ParamType
  | array inner => inner.element
  | type => type

example : read "Array(Enum( a, b ))".toList = some (array (enumeration ["a", "b"])) := by decide +kernel

example : ["Integer", "Array()", "Enum(a,,b)", "Measure(ms", "Tuple(a)"].map (read ·.toList) =
    List.replicate 5 none := by decide +kernel

end ParamType

end CommandLang
