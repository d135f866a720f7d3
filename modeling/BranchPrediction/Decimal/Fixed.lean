/-!
# Decimals with a fixed number of places

A floating-point number is written with a given number of decimal places. It is rounded from its
exact binary value, and a value halfway between two decimals goes to the one with an even last
digit.
-/

namespace BranchPrediction.Decimal

/-- The whole number nearest to `num / den`, the even one of two that are equally near. -/
def roundHalfEven (num den : Nat) : Nat :=
  let q := num / den
  let r := num % den
  if 2 * r < den then q
  else if den < 2 * r then q + 1
  else q + q % 2

/-- The magnitude of a finite float as `m * 2 ^ e`, from its bits. -/
def magnitude (bits : UInt64) : Nat × Int :=
  let fraction : Nat := bits.toNat % 2 ^ 52
  let exponent : Nat := bits.toNat / 2 ^ 52 % 2 ^ 11
  if exponent = 0 then (fraction, -1074)
  else (fraction + 2 ^ 52, (exponent : Int) - 1075)

/-- The number `m * 2 ^ e` in units of the last of `places` decimal places, rounded. -/
def scaled (m : Nat) (e : Int) (places : Nat) : Nat :=
  if 0 ≤ e then m * 10 ^ places * 2 ^ e.toNat
  else roundHalfEven (m * 10 ^ places) (2 ^ (-e).toNat)

/-- Pads a text on the left to a width. -/
def padLeft (fill : Char) (width : Nat) (s : List Char) : List Char :=
  List.replicate (width - s.length) fill ++ s

/-- A number of units of the last place, with the point before the last `places` digits. -/
def placePoint (places units : Nat) : List Char :=
  let digits := padLeft '0' (places + 1) (Nat.toDigits 10 units)
  let whole := digits.take (digits.length - places)
  if places = 0 then whole else whole ++ '.' :: digits.drop (digits.length - places)

/-- A float with `places` decimal places. -/
def renderFixed (places : Nat) (x : Float) : String :=
  if x.isNaN then "NaN"
  else
    let sign := if 2 ^ 63 ≤ x.toBits.toNat then ['-'] else []
    let text :=
      if x.isInf then ['i', 'n', 'f']
      else
        let (m, e) := magnitude x.toBits
        placePoint places (scaled m e places)
    String.ofList (sign ++ text)

/-- A number right-aligned in a field. -/
def renderAligned (width n : Nat) : String :=
  String.ofList (padLeft ' ' width (Nat.toDigits 10 n))

/-- A number in hexadecimal digits, with leading zeros up to a width. -/
def renderHex (width n : Nat) : String :=
  String.ofList (padLeft '0' width (Nat.toDigits 16 n))

theorem roundHalfEven_bounds (num den : Nat) (h : 0 < den) :
    2 * num ≤ (2 * roundHalfEven num den + 1) * den
      ∧ 2 * roundHalfEven num den * den ≤ 2 * num + den := by
  have hd := Nat.div_add_mod num den
  have hm := Nat.mod_lt num h
  simp only [roundHalfEven]
  generalize num / den = q at *
  generalize num % den = r at *
  have e : (2 * q + 1) * den = 2 * (den * q) + den := by
    rw [Nat.add_mul, Nat.mul_assoc, Nat.mul_comm q den, Nat.one_mul]
  have e1 : (2 * (q + 1) + 1) * den = 2 * (den * q) + 3 * den := by
    rw [Nat.add_mul, Nat.mul_assoc, Nat.add_mul, Nat.mul_comm q den]
    omega
  have e2 : 2 * q * den = 2 * (den * q) := by
    rw [Nat.mul_assoc, Nat.mul_comm q den]
  have e3 : 2 * (q + 1) * den = 2 * (den * q) + 2 * den := by
    rw [Nat.mul_assoc, Nat.add_mul, Nat.mul_comm q den]
    omega
  split
  · rw [e, e2]; omega
  · split
    · rw [e1, e3]; omega
    · rcases Nat.mod_two_eq_zero_or_one q with hq | hq
      · rw [hq, Nat.add_zero q, e, e2]; omega
      · rw [hq, e1, e3]; omega

end BranchPrediction.Decimal
