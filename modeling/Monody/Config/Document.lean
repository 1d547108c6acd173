import Monody.Config.Value
import Monody.Text.Numeral

/-!
# Configuration documents

The part of YAML 1.1 that a configuration needs: mappings and lists by indentation, mappings and
lists in braces and brackets on one line, plain and quoted scalars, and comments. A plain scalar is
null, a truth value, a number or a text, by its form. What is not read here is refused.

## Main definitions

* `plainValue` — the value of a plain scalar
* `readInline` — a value on one line
* `readBlock` — a value that may span lines
* `readDocument` — the value of a document
-/

namespace Monody.Config

/-- A line that holds something: its indentation, and what follows it. -/
structure Line where
  indent : Nat
  body : List Char
  deriving DecidableEq, Repr

/-- The words for the truth values, in lower case. -/
def truthWords : List (String × Bool) :=
  [("yes", true), ("no", false), ("true", true), ("false", false), ("on", true), ("off", false)]

/-- The three ways to spell a word: in lower case, with a capital, and in capitals. -/
def spellings (word : String) : List (List Char) :=
  [word.toList, word.capitalize.toList, word.toList.map Char.toUpper]

/-- The truth value that a scalar spells. -/
def truthValue? (cs : List Char) : Option Bool :=
  (truthWords.find? fun w => (spellings w.1).contains cs).map (·.2)

/-- The value of a digit of a base up to sixteen. -/
def baseDigit? (base : Nat) (c : Char) : Option Nat :=
  let value? :=
    if '0' ≤ c ∧ c ≤ '9' then some (c.toNat - '0'.toNat)
    else if 'a' ≤ c.toLower ∧ c.toLower ≤ 'f' then some (c.toLower.toNat - 'a'.toNat + 10)
    else none
  value?.filter (· < base)

/-- The number that digits of a base write. -/
def baseDigits? (base : Nat) (cs : List Char) : Option Nat :=
  if cs.isEmpty then none
  else cs.foldlM (fun n c => (baseDigit? base c).map (base * n + ·)) 0

/-- The characters of a numeral without its underscores, which do not count. -/
def counted (cs : List Char) : List Char := cs.filter (· ≠ '_')

/-- A natural number in base two, eight, ten or sixteen, by what it starts with. -/
def natural? : List Char → Option Nat
  | '0' :: 'b' :: cs => baseDigits? 2 (counted cs)
  | '0' :: 'x' :: cs => baseDigits? 16 (counted cs)
  | '0' :: c :: cs => baseDigits? 8 ('0' :: counted (c :: cs))
  | cs => baseDigits? 10 (counted cs)

/-- The values of groups of one or two digits with a colon before each. -/
def sixties? : List Char → Option (List Nat)
  | [] => some []
  | ':' :: c :: ':' :: rest => do return (← baseDigit? 10 c) :: (← sixties? (':' :: rest))
  | [':', c] => do return [← baseDigit? 10 c]
  | ':' :: c :: d :: rest => do
    return (10 * (← baseDigit? 6 c) + (← baseDigit? 10 d)) :: (← sixties? rest)
  | _ => none

/-- The groups of a number in base sixty: a first one of any length, and at least one more. -/
def clockGroups? (cs : List Char) : Option (List Nat) := do
  let rest := cs.dropWhile (· ≠ ':')
  if rest.isEmpty then none
  else return (← baseDigits? 10 (counted (cs.takeWhile (· ≠ ':')))) :: (← sixties? rest)

/-- A natural number in base sixty, which does not begin with a zero. -/
def clockNumber? (cs : List Char) : Option Nat :=
  if cs.head? = some '0' then none
  else (clockGroups? cs).map fun groups => groups.foldl (fun n group => 60 * n + group) 0

/-- The integer that a plain scalar writes. It begins with a digit. -/
def integer? (cs : List Char) : Option Int :=
  let (negative, body) := Text.splitSign cs
  if body.head? = some '_' then none
  else
    let n? := (natural? body).or (clockNumber? body)
    n?.map fun n => if negative then -(n : Int) else n

/-- The exponent that a plain scalar may end with: its sign is always written. -/
def signedExponent : List Char → Bool
  | [] => true
  | e :: sign :: digits =>
    (e = 'e' ∨ e = 'E') && (sign = '+' ∨ sign = '-') && !digits.isEmpty && digits.all Char.isDigit
  | _ => false

/-- A plain scalar has the form of a decimal with a point. A sign is followed by a digit. -/
def isPointed (cs : List Char) : Bool :=
  let digit (c : Char) : Bool := c.isDigit || c == '_'
  let body := (Text.splitSign cs).2
  match body.dropWhile digit with
  | '.' :: rest =>
    let whole := body.takeWhile digit
    let part := rest.takeWhile digit
    (if whole.isEmpty then cs == body && part.head?.any Char.isDigit
      else whole.head?.any Char.isDigit) && signedExponent (rest.dropWhile digit)
  | _ => false

/-- The real in base sixty that has a point in its last group. The groups are added from the last
one on, each times its power of sixty. -/
def clockReal? (cs : List Char) : Option Binary64 :=
  match cs.dropWhile (· ≠ '.'), (clockGroups? (cs.takeWhile (· ≠ '.'))).map List.reverse with
  | '.' :: part, some (last :: groups) =>
    let places := counted part
    if places.all Char.isDigit then
      let digits := (toString last).toList ++ places
      let least := Binary64.ofDecimal false ⟨Text.digitsValue digits, -places.length⟩
      let add (p : Binary64 × Nat) (group : Nat) : Binary64 × Nat :=
        (p.1 + .ofInt group * .ofInt p.2, 60 * p.2)
      some (groups.foldl add (least, 60)).1
    else none
  | _, _ => none

/-- The real that a plain scalar writes. -/
def real? (cs : List Char) : Option Binary64 :=
  let (negative, body) := Text.splitSign cs
  if (spellings "inf").any (body == '.' :: ·) then some (.infinite negative)
  else if [".nan", ".NaN", ".NAN"].any (cs == ·.toList) then some .nan
  else if isPointed cs then Text.readReal? (counted cs)
  else (clockReal? body).map fun x => if negative then -x else x

/-- The value of a plain scalar. -/
def plainValue (cs : List Char) : Value :=
  if cs.isEmpty ∨ cs = ['~'] ∨ (spellings "null").contains cs then .null
  else match truthValue? cs with
    | some b => .bool b
    | none => match integer? cs with
      | some n => .number (.whole n)
      | none => match real? cs with
        | some x => .number (.real x)
        | none => .text cs

/-- What follows a value on its line: nothing, or a comment after a space. -/
def isLineEnd (cs : List Char) : Bool :=
  match cs with
  | [] => true
  | c :: rest => c == ' ' && (rest.dropWhile (· == ' ')).head?.all (· == '#')

/-- The characters up to the closing single quote, which is doubled within, and what follows. -/
def readSingle : List Char → Option (List Char × List Char)
  | '\'' :: '\'' :: rest => (readSingle rest).map fun p => ('\'' :: p.1, p.2)
  | '\'' :: rest => some ([], rest)
  | c :: rest => (readSingle rest).map fun p => (c :: p.1, p.2)
  | [] => none

/-- The characters that a letter after a backslash stands for. -/
def letterEscapes : List (Char × Nat) :=
  [('0', 0), ('a', 7), ('b', 8), ('t', 9), ('\t', 9), ('n', 10), ('v', 11), ('f', 12), ('r', 13),
    ('e', 27), (' ', 32), ('"', 34), ('/', 47), ('\\', 92), ('N', 0x85), ('_', 0xa0), ('L', 0x2028),
    ('P', 0x2029)]

/-- The number of hexadecimal digits after a letter that gives a code point. -/
def pointEscapes : List (Char × Nat) := [('x', 2), ('u', 4), ('U', 8)]

/-- The characters up to the closing double quote, and what follows; `pending` code digits are still
to come for the code point `point`. -/
def readDouble (pending point : Nat) : List Char → Option (List Char × List Char)
  | [] => none
  | c :: rest =>
    match pending with
    | pending + 1 => do
      let point := 16 * point + (← baseDigit? 16 c)
      let (cs, rest) ← readDouble pending point rest
      return (if pending = 0 then Char.ofNat point :: cs else cs, rest)
    | 0 =>
      if c = '"' then some ([], rest)
      else if c ≠ '\\' then (readDouble 0 0 rest).map fun p => (c :: p.1, p.2)
      else match rest with
        | [] => none
        | letter :: rest =>
          match letterEscapes.lookup letter, pointEscapes.lookup letter with
          | some point, _ => (readDouble 0 0 rest).map fun p => (Char.ofNat point :: p.1, p.2)
          | none, some count => readDouble count 0 rest
          | none, none => none

/-- A quoted scalar, and what follows it. -/
def readQuoted? : List Char → Option (List Char × List Char)
  | '\'' :: rest => readSingle rest
  | '"' :: rest => readDouble 0 0 rest
  | _ => none

/-- The characters that cannot begin a plain scalar. -/
def indicators : List Char := ",[]\x7b\x7d#&*!|>'\"%@\x60".toList

/-- A text can be a plain scalar by how it begins. -/
def mayBePlain : List Char → Bool
  | [] => true
  | c :: rest =>
    !indicators.contains c &&
      (c ∉ ['-', '?', ':'] ∨ rest.head?.any (· != ' '))

/-- The characters of a plain scalar, and what follows it: a colon before a space or the end, a
comment after a space, a tab, the end, or one of `stops`. -/
def plainRun (stops : List Char) : List Char → List Char × List Char
  | [] => ([], [])
  | c :: rest =>
    if c = ':' ∧ rest.head?.all (fun d => d == ' ' || stops.contains d) then ([], c :: rest)
    else if c = ' ' ∧ rest.head? = some '#' then ([], c :: rest)
    else if c = '\t' ∨ stops.contains c then ([], c :: rest)
    else
      let (run, after) := plainRun stops rest
      (c :: run, after)

/-- A text without the spaces at its end. -/
def trimEnd (cs : List Char) : List Char := (cs.reverse.dropWhile (· == ' ')).reverse

/-- A text without the spaces at its beginning. -/
def trimStart (cs : List Char) : List Char := cs.dropWhile (· == ' ')

/-- A plain scalar, and what follows it. -/
def readPlain? (stops cs : List Char) : Option (List Char × List Char) :=
  if mayBePlain cs then
    let (run, rest) := plainRun stops cs
    some (trimEnd run, rest)
  else none

/-- A quoted or plain scalar: its text, whether it is quoted, and what follows it. -/
def readScalar? (stops cs : List Char) : Option (List Char × Bool × List Char) :=
  match cs with
  | '\'' :: _ | '"' :: _ => (readQuoted? cs).map fun p => (p.1, true, p.2)
  | _ => (readPlain? stops cs).map fun p => (p.1, false, p.2)

/-- The value of a scalar. -/
def scalarValue (cs : List Char) (quoted : Bool) : Value :=
  if quoted then .text cs else plainValue cs

/-- The characters that end a plain scalar within brackets. -/
def bracketStops : List Char := [',', '[', ']', '\x7b', '\x7d']

mutual

/-- A value within brackets, and what follows it. -/
def readNested (fuel : Nat) (cs : List Char) : Option (Value × List Char) :=
  match fuel, cs with
  | 0, _ => none
  | fuel + 1, '[' :: rest => (readItems fuel (trimStart rest)).map fun p => (.list p.1, p.2)
  | fuel + 1, '\x7b' :: rest =>
    (readEntries fuel [] (trimStart rest)).map fun p => (.mapping p.1, p.2)
  | _ + 1, cs => (readScalar? bracketStops cs).map fun p => (scalarValue p.1 p.2.1, p.2.2)

/-- The items of a list up to its closing bracket, and what follows it. -/
def readItems (fuel : Nat) (cs : List Char) : Option (List Value × List Char) :=
  match fuel, cs with
  | 0, _ => none
  | _ + 1, ']' :: rest => some ([], rest)
  | fuel + 1, cs => do
    let (v, rest) ← readNested fuel cs
    match trimStart rest with
    | ',' :: rest => return ((← readItems fuel (trimStart rest)).map (v :: ·) id)
    | ']' :: rest => return ([v], rest)
    | _ => none

/-- The entries of a mapping up to its closing brace, after those read before, and what follows. -/
def readEntries (fuel : Nat) (entries : List (List Char × Value)) (cs : List Char) :
    Option (List (List Char × Value) × List Char) :=
  match fuel, cs with
  | 0, _ => none
  | _ + 1, '\x7d' :: rest => some (entries, rest)
  | fuel + 1, cs => do
    let (key, _, rest) ← readScalar? bracketStops cs
    let (v, rest) ← match trimStart rest with
      | ':' :: rest => readNested fuel (trimStart rest)
      | rest => some (.null, rest)
    let entries := Value.put key v entries
    match trimStart rest with
    | ',' :: rest => readEntries fuel entries (trimStart rest)
    | '\x7d' :: rest => return (entries, rest)
    | _ => none

end

/-- The value that stands alone on a line. -/
def readInline (cs : List Char) : Option Value := do
  let (v, rest) ← match cs with
    | '[' :: _ | '\x7b' :: _ => readNested (cs.length + 1) cs
    | _ => (readScalar? [] cs).map fun p => (scalarValue p.1 p.2.1, p.2.2)
  if isLineEnd rest then return v else none

/-- The key of an entry, and what follows the colon. -/
def readKey? (cs : List Char) : Option (List Char × List Char) := do
  let (key, _, rest) ← readScalar? [] cs
  match trimStart rest with
  | ':' :: rest => if rest.head?.all (· == ' ') then return (key, rest) else none
  | _ => none

/-- The rest of a list item, if the line is one. -/
def item? : List Char → Option (List Char)
  | ['-'] => some []
  | '-' :: ' ' :: rest => some (trimStart rest)
  | _ => none

/-- A line end, or a comment. -/
def isEmptyRest (cs : List Char) : Bool := isLineEnd (' ' :: trimStart cs)

mutual

/-- The value that begins at the first line and reaches as far as its indentation does, and the
lines after it. -/
def readBlock (fuel : Nat) (lines : List Line) : Option (Value × List Line) :=
  match fuel, lines with
  | 0, _ => none
  | _ + 1, [] => some (.null, [])
  | fuel + 1, line :: rest =>
    if (item? line.body).isSome then
      (readList fuel line.indent (line :: rest)).map fun p => (.list p.1, p.2)
    else if (readKey? line.body).isSome then
      (readMapping fuel line.indent [] (line :: rest)).map fun p => (.mapping p.1, p.2)
    else (readInline line.body).map (·, rest)

/-- The items of a list at an indentation, and the lines after it. -/
def readList (fuel : Nat) (indent : Nat) (lines : List Line) : Option (List Value × List Line) :=
  match fuel, lines with
  | 0, _ => none
  | _ + 1, [] => some ([], [])
  | fuel + 1, line :: rest =>
    match item? line.body with
    | none => some ([], line :: rest)
    | some body =>
      if line.indent ≠ indent then some ([], line :: rest)
      else do
        let (v, rest) ← if isEmptyRest body then readBelow fuel (indent + 1) rest
          else readBlock fuel (⟨indent + (line.body.length - body.length), body⟩ :: rest)
        return ((← readList fuel indent rest).map (v :: ·) id)

/-- The entries of a mapping at an indentation after those read before, and the lines after it. -/
def readMapping (fuel : Nat) (indent : Nat) (entries : List (List Char × Value))
    (lines : List Line) : Option (List (List Char × Value) × List Line) :=
  match fuel, lines with
  | 0, _ => none
  | _ + 1, [] => some (entries, [])
  | fuel + 1, line :: rest =>
    if line.indent ≠ indent then some (entries, line :: rest)
    else do
      let (key, body) ← readKey? line.body
      let (v, rest) ← if isEmptyRest body then
          if rest.head?.any fun l => l.indent = indent ∧ (item? l.body).isSome then
            (readList fuel indent rest).map fun p => (.list p.1, p.2)
          else readBelow fuel (indent + 1) rest
        else (readInline (trimStart body)).map (·, rest)
      readMapping fuel indent (Value.put key v entries) rest

/-- The value on the lines of at least an indentation, or null if there are none. -/
def readBelow (fuel : Nat) (indent : Nat) (lines : List Line) : Option (Value × List Line) :=
  match fuel, lines with
  | 0, _ => none
  | _ + 1, [] => some (.null, [])
  | fuel + 1, line :: rest =>
    if indent ≤ line.indent then readBlock fuel (line :: rest) else some (.null, line :: rest)

end

/-- A character that a document may hold. -/
def isAllowed (c : Char) : Bool :=
  let n := c.toNat
  n == 9 || n == 10 || n == 13 || (0x20 ≤ n && n ≤ 0x7e) || n == 0x85 ||
    (0xa0 ≤ n && n ≠ 0xfffe && n ≠ 0xffff)

/-- The lines of a text, at line feeds, carriage returns, and the two together. -/
def splitLines : List Char → List Char → List (List Char)
  | line, [] => [line.reverse]
  | line, '\r' :: '\n' :: rest => line.reverse :: splitLines [] rest
  | line, c :: rest =>
    if c = '\n' ∨ c = '\r' then line.reverse :: splitLines [] rest
    else splitLines (c :: line) rest

/-- The lines that hold something, or none if a line is indented by anything but spaces. -/
def contentLines? (lines : List (List Char)) : Option (List Line) :=
  let one (cs : List Char) : Option (List Line) :=
    let body := trimStart cs
    match body with
    | [] => some []
    | c :: _ =>
      if c = '#' then some []
      else if c = '\t' then none
      else some [⟨cs.length - body.length, trimEnd body⟩]
  (lines.mapM one).map List.flatten

/-- The lines without the mark that may begin a document. -/
def dropMark : List Line → List Line
  | ⟨0, '-' :: '-' :: '-' :: after⟩ :: rest =>
    if isEmptyRest after then rest
    else if after.head? = some ' ' then
      ⟨3 + (after.length - (trimStart after).length), trimStart after⟩ :: rest
    else ⟨0, '-' :: '-' :: '-' :: after⟩ :: rest
  | lines => lines

/-- The value of a document; none if it is refused. -/
def readDocument (cs : List Char) : Option Value := do
  if !cs.all isAllowed then none
  else
    let lines := dropMark (← contentLines? (splitLines [] cs))
    let (v, rest) ← readBlock (3 * cs.length + 3) lines
    if rest.isEmpty then return v else none

end Monody.Config
