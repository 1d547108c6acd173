/-!
# Quantities of variable length

A file writes a quantity in groups of seven bits, the highest first. Every byte but the last has its
high bit set, so a quantity ends where that bit is clear. There is no limit on its length.

## Main definitions

* `writeQuantity` — the bytes of a natural number
* `readQuantity` — the natural number at the front, and the bytes after it
-/

namespace Monody.Midi

/-- The groups of a number that are not its last one, each with its high bit set. -/
def leadingGroups (n : Nat) : List UInt8 :=
  if n = 0 then [] else leadingGroups (n / 128) ++ [.ofNat (n % 128 + 128)]
termination_by n
decreasing_by omega

/-- The bytes of a quantity. -/
def writeQuantity (n : Nat) : List UInt8 := leadingGroups (n / 128) ++ [.ofNat (n % 128)]

/-- The quantity at the front of the bytes after groups that stand for `high`, and the bytes after
it; none if the bytes end first. -/
def readQuantityFrom (high : Nat) : List UInt8 → Option (Nat × List UInt8)
  | [] => none
  | b :: rest =>
    let n := 128 * high + b.toNat % 128
    if b.toNat < 128 then some (n, rest) else readQuantityFrom n rest

/-- The quantity at the front of the bytes, and the bytes after it. -/
def readQuantity (bytes : List UInt8) : Option (Nat × List UInt8) := readQuantityFrom 0 bytes

theorem length_lt_of_readQuantityFrom {high n : Nat} {bytes rest : List UInt8}
    (h : readQuantityFrom high bytes = some (n, rest)) : rest.length < bytes.length := by
  induction bytes generalizing high with
  | nil => simp [readQuantityFrom] at h
  | cons b tail ih =>
    simp only [readQuantityFrom] at h
    split at h
    · simp only [Option.some.injEq, Prod.mk.injEq] at h
      simp [← h.2]
    · exact Nat.lt_succ_of_lt (ih h)

/-- A quantity takes at least one byte. -/
theorem length_lt_of_readQuantity {n : Nat} {bytes rest : List UInt8}
    (h : readQuantity bytes = some (n, rest)) : rest.length < bytes.length :=
  length_lt_of_readQuantityFrom h

end Monody.Midi
