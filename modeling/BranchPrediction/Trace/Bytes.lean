import BranchPrediction.Branch.Record

/-!
# Trace files

A trace file is a sequence of records of 24 bytes: the address and the target as words of eight
bytes, the flags as a word of four, the least significant byte first, and four bytes of padding.
Padding is written as zeros and not looked at. Main statement: a written record reads back.
-/

namespace BranchPrediction

/-- The low `count` bytes of `x`, the least significant first. -/
def littleEndian : (count : Nat) → Nat → List UInt8
  | 0, _ => []
  | count + 1, x => UInt8.ofNat x :: littleEndian count (x / 256)

/-- The number whose bytes are given, the least significant first. -/
def ofLittleEndian : List UInt8 → Nat
  | [] => 0
  | b :: bs => b.toNat + 256 * ofLittleEndian bs

@[simp] theorem length_littleEndian (count x : Nat) : (littleEndian count x).length = count := by
  induction count generalizing x with
  | zero => rfl
  | succ count ih => simp [littleEndian, ih]

theorem ofLittleEndian_littleEndian (count x : Nat) :
    ofLittleEndian (littleEndian count x) = x % 256 ^ count := by
  induction count generalizing x with
  | zero => simp [littleEndian, ofLittleEndian, Nat.mod_one]
  | succ count ih =>
    simp only [littleEndian, ofLittleEndian, ih, UInt8.toNat_ofNat']
    rw [Nat.pow_succ' (n := count), Nat.mod_mul]

namespace Record

/-- The number of bytes of a record. -/
def byteSize : Nat := 24

def toBytes (r : Record) : List UInt8 :=
  littleEndian 8 r.pc.toNat ++ littleEndian 8 r.target.toNat
    ++ littleEndian 4 r.flags.bits.toNat ++ List.replicate 4 0

/-- The record in the first bytes of a list. -/
def ofBytes (bs : List UInt8) : Record where
  pc := UInt64.ofNat (ofLittleEndian (bs.take 8))
  target := UInt64.ofNat (ofLittleEndian ((bs.drop 8).take 8))
  flags := ⟨UInt32.ofNat (ofLittleEndian ((bs.drop 16).take 4))⟩

@[simp] theorem length_toBytes (r : Record) : r.toBytes.length = byteSize := by
  simp [toBytes, byteSize]

theorem ofBytes_toBytes_append (r : Record) (bs : List UInt8) :
    ofBytes (r.toBytes ++ bs) = r := by
  obtain ⟨pc, target, ⟨flags⟩⟩ := r
  have h8 (x y : Nat) (zs : List UInt8) :
      (littleEndian x y ++ zs).take x = littleEndian x y := by
    rw [List.take_append_of_le_length (by simp), List.take_of_length_le (by simp)]
  have d8 (x y : Nat) (zs : List UInt8) : (littleEndian x y ++ zs).drop x = zs := by
    rw [List.drop_append, List.drop_of_length_le (by simp)]
    simp
  have e16 (zs : List UInt8) : zs.drop 16 = (zs.drop 8).drop 8 := by
    rw [List.drop_drop]
  simp only [ofBytes, toBytes, List.append_assoc, e16, h8, d8, ofLittleEndian_littleEndian]
  have hp := pc.toNat_lt
  have ht := target.toNat_lt
  have hf := flags.toNat_lt
  rw [Nat.mod_eq_of_lt (by omega), Nat.mod_eq_of_lt (by omega), Nat.mod_eq_of_lt (by omega)]
  simp

end Record

def recordsToBytes (rs : List Record) : List UInt8 :=
  rs.flatMap Record.toBytes

/-- The first `count` records of a list of bytes. -/
def recordsOfBytes : (count : Nat) → List UInt8 → List Record
  | 0, _ => []
  | count + 1, bs =>
    Record.ofBytes bs :: recordsOfBytes count (bs.drop Record.byteSize)

/-- The records of a file, if it holds a whole number of them. -/
def recordsOfBytes? (bs : List UInt8) : Option (List Record) :=
  if bs.length % Record.byteSize = 0 then
    some (recordsOfBytes (bs.length / Record.byteSize) bs)
  else none

end BranchPrediction
