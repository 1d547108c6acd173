import Mathlib.Data.List.TakeWhile
import Mathlib.Tactic.Ring
import Monody.Midi.Library

/-!
# Numbers and names as bytes

Each is read back from the front of any bytes, and what follows it is left alone.

## Main results

* `readQuantity_writeQuantity` — quantities of any size
* `bigEndian_bigEndianBytes` — numbers of a fixed size
* `nameBytes_of_isNarrow`, `latinText_map` — names of narrow characters
-/

namespace Monody.Midi

variable {n count : ℕ} {bytes data rest : List UInt8} {text : List Char}

/-! ## Quantities -/

theorem readQuantityFrom_leadingGroups (n : ℕ) (rest : List UInt8) :
    readQuantityFrom 0 (leadingGroups n ++ rest) = readQuantityFrom n rest := by
  induction n using Nat.strongRecOn generalizing rest with
  | ind n ih =>
    rw [leadingGroups]
    by_cases hzero : n = 0
    · rw [if_pos hzero, hzero, List.nil_append]
    · have hbyte : (UInt8.ofNat (n % 128 + 128)).toNat = n % 128 + 128 := by
        rw [UInt8.toNat_ofNat']
        omega
      have hgroup : 128 * (n / 128) + (n % 128 + 128) % 128 = n := by omega
      have hopen : ¬ n % 128 + 128 < 128 := by omega
      rw [if_neg hzero, List.append_assoc, ih (n / 128) (by omega), List.singleton_append]
      simp only [readQuantityFrom, hbyte, hgroup, if_neg hopen]

/-- A quantity is read back, whatever follows it. -/
theorem readQuantity_writeQuantity (n : ℕ) (rest : List UInt8) :
    readQuantity (writeQuantity n ++ rest) = some (n, rest) := by
  have hbyte : (UInt8.ofNat (n % 128)).toNat = n % 128 := by
    rw [UInt8.toNat_ofNat']
    omega
  have hgroup : 128 * (n / 128) + n % 128 % 128 = n := by omega
  rw [readQuantity, writeQuantity, List.append_assoc, readQuantityFrom_leadingGroups,
    List.singleton_append]
  simp only [readQuantityFrom, hbyte, hgroup, if_pos (Nat.mod_lt n (by decide : 0 < 128))]

/-! ## Numbers of a fixed size -/

@[simp] theorem length_bigEndianBytes (count n : ℕ) : (bigEndianBytes count n).length = count := by
  induction count generalizing n with
  | zero => rfl
  | succ count ih => simp [bigEndianBytes, ih]

theorem bigEndian_append (bytes : List UInt8) (b : UInt8) :
    bigEndian (bytes ++ [b]) = 256 * bigEndian bytes + b.toNat := by
  simp [bigEndian]

/-- The bytes of a number stand for its remainder. -/
theorem bigEndian_bigEndianBytes (count n : ℕ) :
    bigEndian (bigEndianBytes count n) = n % 256 ^ count := by
  induction count generalizing n with
  | zero => simp [bigEndian, bigEndianBytes, Nat.mod_one]
  | succ count ih =>
    have hbyte : (UInt8.ofNat n).toNat = n % 256 := UInt8.toNat_ofNat'
    rw [bigEndianBytes, bigEndian_append, ih, hbyte, Nat.pow_succ, Nat.mul_comm (256 ^ count),
      Nat.mod_mul, Nat.add_comm]

theorem bigEndian_of_lt (h : n < 256 ^ count) : bigEndian (bigEndianBytes count n) = n := by
  rw [bigEndian_bigEndianBytes, Nat.mod_eq_of_lt h]

theorem signed16_of_lt (h : n < 32768) : signed16 (bigEndianBytes 2 n) = n := by
  have hword : n < 256 ^ 2 := by omega
  unfold signed16
  rw [bigEndian_of_lt hword]
  exact Int.bmod_eq_of_le (by omega) (by omega)

/-! ## Blocks -/

theorem readBytes_append (h : data.length ≤ greatestLength) :
    readBytes data.length (data ++ rest) = .ok (data, rest) := by
  have hlong : ¬ greatestLength < data.length := by omega
  have hshort : ¬ (data ++ rest).length < data.length := by
    rw [List.length_append]
    omega
  rw [readBytes, if_neg hlong, if_neg hshort, List.splitAt_eq, List.take_left, List.drop_left]

/-- A block of data behind its length is read, whatever follows it. -/
theorem readBlock_append (h : data.length ≤ greatestLength) :
    readBlock (writeQuantity data.length ++ data ++ rest) = .ok (data, rest) := by
  rw [readBlock, List.append_assoc, readQuantity_writeQuantity]
  exact readBytes_append h

/-- A block that is too long is refused. -/
theorem readBlock_of_tooLong (h : greatestLength < n) :
    readBlock (writeQuantity n ++ rest) = .error (.tooLong n) := by
  rw [readBlock, readQuantity_writeQuantity]
  exact if_pos h

/-- A chunk is taken apart into its name, the length of its data, and what follows its header. -/
theorem readChunk_chunk {name : List UInt8} (hname : name.length = 4)
    (hdata : data.length < 256 ^ 4) :
    readChunk (chunk name data ++ rest) = .ok (name, data.length, data ++ rest) := by
  have hbytes : chunk name data ++ rest =
      name ++ (bigEndianBytes 4 data.length ++ (data ++ rest)) := by
    simp only [chunk, List.append_assoc]
  have hlong : ¬ (chunk name data ++ rest).length < 8 := by
    rw [hbytes]
    simp only [List.length_append, length_bigEndianBytes]
    omega
  have hsize : (bigEndianBytes 4 data.length).length = 4 := length_bigEndianBytes ..
  rw [readChunk, if_neg hlong, hbytes, List.take_left' hname, List.drop_left' hname,
    List.take_left' hsize, bigEndian_of_lt hdata, ← List.append_assoc,
    List.drop_left' (by rw [List.length_append, hname, hsize])]

/-! ## Names -/

theorem nameBytes_of_isNarrow (h : ∀ c ∈ text, isNarrow c) :
    nameBytes text = .ok (text.map fun c => .ofNat c.toNat) := by
  rw [nameBytes, List.dropWhile_eq_nil_iff.mpr h]

theorem latinText_map (h : ∀ c ∈ text, isNarrow c) :
    latinText (text.map fun c => .ofNat c.toNat) = text := by
  rw [latinText, List.map_map]
  refine (List.map_congr_left fun c hc => ?_).trans (List.map_id text)
  have hnarrow : c.toNat < 256 := of_decide_eq_true (h c hc)
  have hbyte : (UInt8.ofNat c.toNat).toNat = c.toNat := by
    rw [UInt8.toNat_ofNat', Nat.mod_eq_of_lt hnarrow]
  exact (congrArg Char.ofNat hbyte).trans (Char.ofNat_toNat c)

end Monody.Midi
