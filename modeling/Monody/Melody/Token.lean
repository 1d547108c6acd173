import Monody.Text.Blank

/-!
# Tokens of a score

A score is read one character at a time. Outside parentheses and comments, a pitch letter, a `P`, or
a double slash starts a new token, and white space is passed over. Between `(` and `)` every
character belongs to the token that is open. A comment runs from `//` to the next `//`, or to the
end of the text.

Nothing is refused here: a token of any shape is handed on.

## Main definitions

* `Token` — the characters that count, the slice of the score they come from, and its place
* `step` — what one character does to the token that is open
* `tokens` — the tokens of a score, in order
-/

namespace Monody.Melody

/-- A piece of a score. -/
structure Token where
  /-- The characters without the white space outside parentheses and comments. -/
  text : List Char
  /-- The slice of the score. -/
  raw : List Char
  /-- The offset of the first character of the slice. -/
  start : Nat
  /-- The offset just past the slice. -/
  stop : Nat
  deriving DecidableEq, Repr

/-- Where the reader stands within a token. -/
inductive Mode where
  /-- Outside parentheses and comments. -/
  | plain
  /-- After an opening parenthesis. -/
  | parenthesis
  /-- Between the two slashes that open a comment. -/
  | opening
  /-- Within a comment. -/
  | comment
  /-- Between the two slashes that close a comment. -/
  | closing
  deriving DecidableEq, Repr

/-- A token that is being read. The three lists are in reverse order. -/
structure OpenToken where
  start : Nat
  mode : Mode
  /-- The characters that count. -/
  text : List Char
  /-- The slice so far, up to the last character that counts. -/
  raw : List Char
  /-- The white space passed over since then. -/
  gap : List Char
  deriving DecidableEq, Repr

namespace OpenToken

/-- A token that starts with one character. -/
def first (start : Nat) (mode : Mode) (c : Char) : OpenToken := ⟨start, mode, [c], [c], []⟩

/-- The token with one more character. -/
def push (t : OpenToken) (mode : Mode) (c : Char) : OpenToken :=
  ⟨t.start, mode, c :: t.text, c :: (t.gap ++ t.raw), []⟩

/-- The token after white space that does not count. -/
def skip (t : OpenToken) (c : Char) : OpenToken := { t with gap := c :: t.gap }

/-- The finished token. -/
def close (t : OpenToken) : Token :=
  ⟨t.text.reverse, t.raw.reverse, t.start, t.start + t.raw.length⟩

end OpenToken

/-- The characters that start a token: the pitch letters and the letter of a pause. -/
def isStarter (c : Char) : Bool :=
  ('A' ≤ c && c ≤ 'G') || ('a' ≤ c && c ≤ 'g') || c == 'P' || c == 'p'

/-- The mode after a character outside parentheses. -/
def modeAfter (c : Char) : Mode := if c = '(' then .parenthesis else .plain

/-- The token that is open, finished. -/
def flush (t : Option OpenToken) : List Token := (t.map OpenToken.close).toList

/-- A character outside parentheses and comments, and the one after it: the token it finishes, if
any, and the token that is open then. -/
def stepPlain (pos : Nat) (t : Option OpenToken) (c : Char) (next : Option Char) :
    List Token × Option OpenToken :=
  if c = '/' ∧ next = some '/' then (flush t, some (.first pos .opening c))
  else if isStarter c then (flush t, some (.first pos .plain c))
  else if Text.isBlank c then ([], t.map (·.skip c))
  else match t with
    -- text before any starter is a token of its own
    | none => ([], some (.first pos (modeAfter c) c))
    | some t => ([], some (t.push (modeAfter c) c))

/-- One character and the one after it: the token that it finishes, if any, and the token that is
open then. -/
def step (pos : Nat) (t : Option OpenToken) (c : Char) (next : Option Char) :
    List Token × Option OpenToken :=
  match t with
  | none => stepPlain pos none c next
  | some t =>
    match t.mode with
    | .plain => stepPlain pos (some t) c next
    | .parenthesis => ([], some (t.push (if c = ')' then .plain else .parenthesis) c))
    | .opening => ([], some (t.push .comment c))
    | .comment => ([], some (t.push (if c = '/' ∧ next = some '/' then .closing else .comment) c))
    | .closing => ([(t.push .plain c).close], none)

/-- The tokens of the rest of a score, from an offset and with the token that is open there. -/
def scan (pos : Nat) (t : Option OpenToken) : List Char → List Token
  | [] => flush t
  | c :: rest =>
    let (done, t) := step pos t c rest.head?
    done ++ scan (pos + 1) t rest

/-- The tokens of a score. -/
def tokens (text : List Char) : List Token := scan 0 none text

/-- The characters that count, token by token. -/
def elements (text : List Char) : List (List Char) := (tokens text).map (·.text)

end Monody.Melody
