import Monody.Number
import Monody.Text.Numeral

/-!
# Configuration values

A configuration document holds null, truth values, numbers, texts, lists and mappings. A mapping
keeps its entries in order, and an entry that is put in again replaces the value of the first.

## Main definitions

* `Value` — what a document holds
* `Value.lookup`, `Value.put` — the value of a key, and an entry put in
* `Value.display?` — a value as a message tells it
-/

namespace Monody.Config

/-- What a configuration document holds. -/
inductive Value where
  | null
  | bool (b : Bool)
  | number (n : Number)
  | text (cs : List Char)
  | list (items : List Value)
  | mapping (entries : List (List Char × Value))
  deriving Inhabited

namespace Value

/-- The value of a key, if the mapping has it. -/
def lookup (key : List Char) : List (List Char × Value) → Option Value
  | [] => none
  | (k, v) :: rest => if k = key then some v else lookup key rest

/-- Entries with one more, which replaces an entry of the same key. -/
def put (key : List Char) (value : Value) :
    List (List Char × Value) → List (List Char × Value)
  | [] => [(key, value)]
  | (k, v) :: rest => if k = key then (k, value) :: rest else (k, v) :: put key value rest

/-- A value that stands for nothing: null, false, zero, and whatever is empty. -/
def isVoid : Value → Bool
  | null => true
  | bool b => !b
  | number (.whole n) => n == 0
  | number (.real x) => x.isZero
  | text cs => cs.isEmpty
  | list items => items.isEmpty
  | mapping entries => entries.isEmpty

/-- The word for the kind of a value. -/
def kind : Value → String
  | null => "NoneType"
  | bool _ => "bool"
  | number (.whole _) => "int"
  | number (.real _) => "float"
  | text _ => "str"
  | list _ => "list"
  | mapping _ => "dict"

mutual

/-- A value as it is shown within a list or a mapping; none if a number in it is not shown. -/
def shown? : Value → Option (List Char)
  | null => some "None".toList
  | bool b => some (if b then "True" else "False").toList
  | number n => n.shown?
  | text cs => some (Text.quote cs)
  | list items => (shownItems? items).map fun cs => '[' :: cs ++ [']']
  | mapping entries => (shownEntries? entries).map fun cs => '\x7b' :: cs ++ ['\x7d']

/-- The items of a list with commas between them. -/
def shownItems? : List Value → Option (List Char)
  | [] => some []
  | [v] => v.shown?
  | v :: rest => do return (← v.shown?) ++ ',' :: ' ' :: (← shownItems? rest)

/-- The entries of a mapping with commas between them. -/
def shownEntries? : List (List Char × Value) → Option (List Char)
  | [] => some []
  | [(k, v)] => do return Text.quote k ++ ':' :: ' ' :: (← v.shown?)
  | (k, v) :: rest => do
    return Text.quote k ++ ':' :: ' ' :: ((← v.shown?) ++ ',' :: ' ' :: (← shownEntries? rest))

end

/-- A value as a message tells it: a text as it is, and any other as it is shown. -/
def display? : Value → Option (List Char)
  | text cs => some cs
  | v => v.shown?

end Value

end Monody.Config
