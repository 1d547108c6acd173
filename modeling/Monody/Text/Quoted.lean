import Monody.Text.Printable

/-!
# Quoted texts in messages

A message shows a text between quotation marks: single ones, or double ones when the text has a
single mark and no double one. The backslash, the mark in use and the three common line controls
are escaped by a letter, every other character that is not printable by its code point.

## Main definitions

* `quote` — a text as a message shows it
* `quoteList` — a list of texts as a message shows it
-/

namespace Monody.Text

/-- The lower-case hexadecimal digits of a number, padded on the left with zeros. -/
def hexDigits (width n : Nat) : List Char :=
  let ds := Nat.toDigits 16 n
  List.replicate (width - ds.length) '0' ++ ds

/-- A character by its code point, in two, four or eight hexadecimal digits. -/
def escapePoint (c : Char) : List Char :=
  let n := c.toNat
  if n < 0x100 then '\\' :: 'x' :: hexDigits 2 n
  else if n < 0x10000 then '\\' :: 'u' :: hexDigits 4 n
  else '\\' :: 'U' :: hexDigits 8 n

/-- The mark that a text is quoted with. -/
def quotationMark (cs : List Char) : Char :=
  if '\'' ∈ cs ∧ '"' ∉ cs then '"' else '\''

/-- One character between quotation marks. -/
def quoteChar (mark c : Char) : List Char :=
  if c = mark ∨ c = '\\' then ['\\', c]
  else if c = '\t' then ['\\', 't']
  else if c = '\n' then ['\\', 'n']
  else if c = '\r' then ['\\', 'r']
  else if isPrintable c then [c]
  else escapePoint c

/-- A text between quotation marks. -/
def quote (cs : List Char) : List Char :=
  let mark := quotationMark cs
  mark :: cs.flatMap (quoteChar mark) ++ [mark]

/-- A list of texts: quoted, with commas between, in brackets. -/
def quoteList (ts : List (List Char)) : List Char :=
  '[' :: List.intercalate [',', ' '] (ts.map quote) ++ [']']

end Monody.Text
