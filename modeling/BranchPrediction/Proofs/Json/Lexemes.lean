import BranchPrediction.Proofs.Json.Grammar
import Mathlib.Data.List.Basic
import Mathlib.Data.List.DropRight

/-!
# Reading lexemes

What the readers of blanks, punctuation, strings and numbers make of texts that the grammar allows.
Main statements: `readQuoted_of_spells`, `skipQuoted_of_quotedText` and `Numeral.read_of_written`.
-/

namespace BranchPrediction.Json

theorem isGap_nil : IsGap [] :=
  fun _ h => absurd h List.not_mem_nil

theorem skipBlank_gap {gap : List Char} (h : IsGap gap) (s : List Char) :
    skipBlank (gap ++ s) = skipBlank s :=
  List.dropWhile_append_of_pos h

theorem skipBlank_cons {c : Char} (h : isBlank c = false) (s : List Char) :
    skipBlank (c :: s) = c :: s :=
  List.dropWhile_cons_of_neg (by simp [h])

theorem skipBlank_of_gap {gap : List Char} (h : IsGap gap) : skipBlank gap = [] :=
  List.dropWhile_eq_nil_iff.2 h

/-- The text of a value begins with a character that is neither a blank nor a closing bracket. -/
def Opens (t : List Char) : Prop :=
  ∃ c u, t = c :: u ∧ isBlank c = false ∧ c ≠ ']'

theorem Opens.skipBlank_eq {t gap : List Char} (h : Opens t) (hg : IsGap gap) (rest : List Char) :
    skipBlank (gap ++ (t ++ rest)) = t ++ rest := by
  obtain ⟨c, u, rfl, hc, -⟩ := h
  rw [skipBlank_gap hg, List.cons_append, skipBlank_cons hc]

theorem endsNumeral_nil : EndsNumeral [] :=
  fun _ h => absurd h (by simp)

theorem endsNumeral_cons {c : Char} (hc : c ∈ [',', ']', closeBrace]) (rest : List Char) :
    EndsNumeral (c :: rest) := by
  have hall : ∀ d ∈ [',', ']', closeBrace], d.isDigit = false ∧ d ≠ '.' ∧ d ≠ 'e' ∧ d ≠ 'E' := by
    decide
  rintro d ⟨⟩
  exact hall c hc

theorem EndsNumeral.gap {gap rest : List Char} (h : EndsNumeral rest) (hg : IsGap gap) :
    EndsNumeral (gap ++ rest) := by
  cases gap with
  | nil => exact h
  | cons c gap =>
    rintro d ⟨⟩
    have hc : c ∈ [' ', '\n', '\t', '\r'] := by
      have := hg c List.mem_cons_self
      simpa [isBlank, or_assoc] using this
    have hall : ∀ d ∈ [' ', '\n', '\t', '\r'],
        d.isDigit = false ∧ d ≠ '.' ∧ d ≠ 'e' ∧ d ≠ 'E' := by decide
    exact hall c hc

/-- The comma in front of elements and members that are not the first. -/
def leading (first : Bool) : List Char :=
  if first then [] else [',']

theorem elementStart_leading {gap s u : List Char} {c : Char} (first : Bool) (hg : IsGap gap)
    (hs : skipBlank s = c :: u) (hc : c ≠ ']') :
    elementStart first (gap ++ (leading first ++ s)) = .ok (some (c :: u)) := by
  cases first <;> simp [elementStart, leading, skipBlank_gap hg, skipBlank_cons, isBlank, hs, hc]

theorem elementStart_close {gap : List Char} (first : Bool) (hg : IsGap gap) (rest : List Char) :
    elementStart first (gap ++ ']' :: rest) = .ok none := by
  simp [elementStart, skipBlank_gap hg, skipBlank_cons, isBlank]

theorem listEnd_close {gap : List Char} (hg : IsGap gap) (rest : List Char) :
    listEnd (gap ++ ']' :: rest) = .ok rest := by
  simp [listEnd, skipBlank_gap hg, skipBlank_cons, isBlank]

theorem memberStart_leading {gap s u : List Char} (first : Bool) (hg : IsGap gap)
    (hs : skipBlank s = '"' :: u) :
    memberStart first (gap ++ (leading first ++ s)) = .ok (true, u) := by
  cases first <;>
    simp [memberStart, leading, skipBlank_gap hg, skipBlank_cons, isBlank, hs, closeBrace]

theorem memberStart_close {gap : List Char} (first : Bool) (hg : IsGap gap) (rest : List Char) :
    memberStart first (gap ++ closeBrace :: rest) = .ok (false, rest) := by
  simp [memberStart, skipBlank_gap hg, skipBlank_cons, isBlank, closeBrace]

theorem colon_gap {gap : List Char} (hg : IsGap gap) (rest : List Char) :
    colon (gap ++ ':' :: rest) = .ok rest := by
  simp [colon, skipBlank_gap hg, skipBlank_cons, isBlank]

theorem literal_append (t rest : List Char) : literal t (t ++ rest) = .ok rest := by
  induction t with
  | nil => rfl
  | cons c t ih => simpa [literal] using ih

/-! ## Strings -/

theorem hasBytes_of_le_length {n : Nat} {s : List Char} (h : n ≤ s.length) :
    hasBytes n s = true := by
  induction s generalizing n with
  | nil =>
    obtain rfl : n = 0 := Nat.le_zero.1 h
    rfl
  | cons c s ih =>
    cases n with
    | zero => rfl
    | succ n =>
      have hsize := c.utf8Size_pos
      rw [hasBytes]
      exact ih (by rw [List.length_cons] at h; omega)

theorem isSome_hexDigit? {c : Char} (h : c ∈ hexDigits) : (hexDigit? c).isSome = true := by
  have hall : ∀ d ∈ hexDigits, (hexDigit? d).isSome = true := by decide
  exact hall c h

theorem isSome_simpleEscape? {c : Char} (h : c ∈ escapeLetters) :
    (simpleEscape? c).isSome = true := by
  have hall : ∀ d ∈ escapeLetters, (simpleEscape? d).isSome = true := by decide
  exact hall c h

theorem ne_u_of_simpleEscape? {c d : Char} (h : simpleEscape? c = some d) : c ≠ 'u' := by
  rintro rfl
  have hu : simpleEscape? 'u' = none := by decide
  rw [hu] at h
  cases h

def afterUnit (strict : Bool) (lead : Option Nat) (unit : Nat) (s : List Char) :
    Reading (List Char × List Char) :=
  if !strict then readQuotedFrom strict .plain s
  else
    match lead with
    | some l =>
      if isTrailing unit then consReading (pairedChar l unit) (readQuotedFrom strict .plain s)
      else .error .malformed
    | none =>
      if isTrailing unit then .error .malformed
      else if isLeading unit then readQuotedFrom strict (.leading unit) s
      else consReading (Char.ofNat unit) (readQuotedFrom strict .plain s)

theorem readQuotedFrom_unit {ds : List Char} (h : IsUnit ds) (strict : Bool) (lead : Option Nat)
    (s : List Char) :
    readQuotedFrom strict (.digits 4 0 lead) (ds ++ s) = afterUnit strict lead (hexValue ds) s := by
  obtain ⟨a, b, c, d, rfl⟩ := List.length_eq_four.1 h.length
  obtain ⟨w, hw⟩ := Option.isSome_iff_exists.1 (isSome_hexDigit? (h.hex a (by simp)))
  obtain ⟨x, hx⟩ := Option.isSome_iff_exists.1 (isSome_hexDigit? (h.hex b (by simp)))
  obtain ⟨y, hy⟩ := Option.isSome_iff_exists.1 (isSome_hexDigit? (h.hex c (by simp)))
  obtain ⟨z, hz⟩ := Option.isSome_iff_exists.1 (isSome_hexDigit? (h.hex d (by simp)))
  cases lead <;> simp [readQuotedFrom, hexValue, afterUnit, hw, hx, hy, hz]

theorem readQuotedFrom_escaped_unit {ds : List Char} (h : IsUnit ds) (strict : Bool)
    (s : List Char) :
    readQuotedFrom strict .plain ('\\' :: 'u' :: ds ++ s)
      = afterUnit strict none (hexValue ds) s := by
  have hbytes : hasBytes 4 (ds ++ s) = true :=
    hasBytes_of_le_length (by rw [List.length_append, h.length]; omega)
  rw [← readQuotedFrom_unit h]
  simp [readQuotedFrom, hbytes]

theorem readQuotedFrom_plain {c : Char} (h : IsPlain c) (strict : Bool) (s : List Char) :
    readQuotedFrom strict .plain (c :: s) = consReading c (readQuotedFrom strict .plain s) := by
  have hcontrol : ¬ c.toNat < 0x20 := Nat.not_lt.2 h.not_control
  simp [readQuotedFrom, h.not_quote, h.not_backslash, hcontrol]

theorem readQuotedFrom_escape {c d : Char} (h : simpleEscape? c = some d) (strict : Bool)
    (s : List Char) :
    readQuotedFrom strict .plain ('\\' :: c :: s)
      = consReading d (readQuotedFrom strict .plain s) := by
  simp [readQuotedFrom, ne_u_of_simpleEscape? h, h]

theorem readQuoted_of_spells {s cs : List Char} (h : Spells s cs) (rest : List Char) :
    readQuoted (s ++ '"' :: rest) = .ok (cs, rest) := by
  unfold readQuoted
  induction h with
  | nil => simp [readQuotedFrom]
  | plain hc _ ih => rw [List.cons_append, readQuotedFrom_plain hc, ih]; rfl
  | escape hc _ ih => rw [List.cons_append, List.cons_append, readQuotedFrom_escape hc, ih]; rfl
  | unit hds hlead htrail _ ih =>
    rw [List.append_assoc, readQuotedFrom_escaped_unit hds]
    simp [afterUnit, hlead, htrail, ih, consReading]
  | @pair lead trail s cs hl ht hlead htrail _ ih =>
    have hnot : isTrailing (hexValue lead) = false := by
      simp only [isLeading, isTrailing, Bool.and_eq_true, decide_eq_true_eq, Bool.and_eq_false_iff,
        decide_eq_false_iff_not] at hlead ⊢
      omega
    have hbytes : hasBytes 4 (trail ++ (s ++ '"' :: rest)) = true :=
      hasBytes_of_le_length (by rw [List.length_append, ht.length]; omega)
    calc readQuotedFrom true .plain
          ('\\' :: 'u' :: lead ++ '\\' :: 'u' :: trail ++ s ++ '"' :: rest)
      _ = readQuotedFrom true .plain
          ('\\' :: 'u' :: lead ++ ('\\' :: 'u' :: (trail ++ (s ++ '"' :: rest)))) := by simp
      -- a leading unit is kept until the unit after it is known
      _ = readQuotedFrom true (.digits 4 0 (some (hexValue lead)))
          (trail ++ (s ++ '"' :: rest)) := by
        rw [readQuotedFrom_escaped_unit hl]
        simp [afterUnit, hnot, hlead, readQuotedFrom, hbytes]
      _ = .ok (pairedChar (hexValue lead) (hexValue trail) :: cs, rest) := by
        rw [readQuotedFrom_unit ht]
        simp [afterUnit, htrail, ih, consReading]

theorem skipQuoted_of_quotedText {s : List Char} (h : QuotedText s) (rest : List Char) :
    skipQuoted (s ++ '"' :: rest) = .ok rest := by
  have hread : ∃ cs, readQuotedFrom false .plain (s ++ '"' :: rest) = .ok (cs, rest) := by
    induction h with
    | nil => exact ⟨[], by simp [readQuotedFrom]⟩
    | @plain c s hc _ ih =>
      obtain ⟨cs, hcs⟩ := ih
      exact ⟨c :: cs, by rw [List.cons_append, readQuotedFrom_plain hc, hcs]; rfl⟩
    | escape hc _ ih =>
      obtain ⟨cs, hcs⟩ := ih
      obtain ⟨d, hd⟩ := Option.isSome_iff_exists.1 (isSome_simpleEscape? hc)
      exact ⟨d :: cs, by
        rw [List.cons_append, List.cons_append, readQuotedFrom_escape hd, hcs]; rfl⟩
    | unit hds _ ih =>
      obtain ⟨cs, hcs⟩ := ih
      refine ⟨cs, ?_⟩
      rw [List.append_assoc, readQuotedFrom_escaped_unit hds]
      exact hcs
  obtain ⟨cs, hcs⟩ := hread
  rw [skipQuoted, hcs]
  rfl

/-! ## Numbers -/

namespace Numeral

theorem readDigits_append {ds rest : List Char} (early : ReadError) (h : IsDigits ds)
    (hr : ∀ c ∈ rest.head?, c.isDigit = false) :
    readDigits early (ds ++ rest) = .ok (ds, rest) := by
  have htake : rest.takeWhile Char.isDigit = [] := by
    cases rest with
    | nil => rfl
    | cons c rest => simp [hr c rfl]
  have hdrop : rest.dropWhile Char.isDigit = rest := by
    cases rest with
    | nil => rfl
    | cons c rest => simp [hr c rfl]
  have hparts : (ds ++ rest).takeWhile Char.isDigit = ds ∧
      (ds ++ rest).dropWhile Char.isDigit = rest := by
    rw [List.takeWhile_append_of_pos h.digit, List.dropWhile_append_of_pos h.digit, htake, hdrop,
      List.append_nil]
    exact ⟨rfl, rfl⟩
  obtain ⟨c, u, rfl⟩ := List.exists_cons_of_ne_nil h.ne_nil
  rw [List.cons_append] at hparts ⊢
  rw [readDigits, if_pos (h.digit c List.mem_cons_self), hparts.1, hparts.2]

theorem readWhole_append {ds rest : List Char} (early : ReadError) (h : IsDigits ds)
    (hzero : ds.head? = some '0' → ds.length = 1) (hr : ∀ c ∈ rest.head?, c.isDigit = false) :
    readWhole early (ds ++ rest) = .ok (ds, rest) := by
  rw [readWhole, readDigits_append early h hr]
  exact if_neg fun hds => hds.2 (hzero hds.1)

theorem readFraction_append {fraction : Option (List Char)} {rest : List Char} (early : ReadError)
    (h : ∀ ds ∈ fraction, IsDigits ds) (hr : ∀ c ∈ rest.head?, c.isDigit = false ∧ c ≠ '.') :
    readFraction early (fractionText fraction ++ rest) = .ok (fraction, rest) := by
  cases fraction with
  | none =>
    cases rest with
    | nil => rfl
    | cons c rest => simp [fractionText, readFraction, (hr c rfl).2]
  | some ds =>
    simp only [fractionText, List.cons_append, readFraction, if_true,
      readDigits_append early (h ds rfl) fun c hc => (hr c hc).1]
    rfl

theorem readSign_append {negative : Bool} {sign s : List Char} (h : SignText negative sign)
    (hs : ∀ c ∈ s.head?, c.isDigit = true) : readSign (sign ++ s) = (negative, s) := by
  cases h with
  | minus => simp [readSign]
  | plus => simp [readSign]
  | absent =>
    cases s with
    | nil => rfl
    | cons c s =>
      have hc : c.isDigit = true := hs c rfl
      have hminus : c ≠ '-' := by rintro rfl; exact absurd hc (by decide)
      have hplus : c ≠ '+' := by rintro rfl; exact absurd hc (by decide)
      simp [readSign, hminus, hplus]

theorem readExponent_append {exponent : Option (Bool × List Char)} {text rest : List Char}
    (early : ReadError) (h : ExponentText exponent text) (hr : EndsNumeral rest) :
    readExponent early (text ++ rest) = .ok (exponent, rest) := by
  cases h with
  | absent =>
    cases rest with
    | nil => rfl
    | cons c rest =>
      obtain ⟨-, -, he, hE⟩ := hr c rfl
      simp [readExponent, he, hE]
  | @present letter negative sign ds hletter hsign hds =>
    have hhead : ∀ c ∈ (ds ++ rest).head?, c.isDigit = true := by
      obtain ⟨c, u, rfl⟩ := List.exists_cons_of_ne_nil hds.ne_nil
      rintro d ⟨⟩
      exact hds.digit _ List.mem_cons_self
    rw [List.append_assoc, List.cons_append, readExponent, if_pos hletter,
      readSign_append hsign hhead]
    dsimp only
    rw [readDigits_append early hds fun c hc => (hr c hc).1]
    rfl

theorem endsFraction_append {exponent : Option (Bool × List Char)} {text rest : List Char}
    (h : ExponentText exponent text) (hr : EndsNumeral rest) :
    ∀ c ∈ (text ++ rest).head?, c.isDigit = false ∧ c ≠ '.' := by
  cases h with
  | absent => exact fun c hc => ⟨(hr c hc).1, (hr c hc).2.1⟩
  | present hletter _ _ =>
    rintro c ⟨⟩
    rcases hletter with rfl | rfl <;> decide

/-- A numeral is read as it is written. -/
theorem read_of_written {n : Numeral} {t rest : List Char} (early : ReadError) (h : n.Written t)
    (hr : EndsNumeral rest) : read early (t ++ rest) = .ok (n, rest) := by
  obtain @⟨negative, whole, fraction, exponent, text, hwhole, hzero, hfraction, hexponent⟩ := h
  have hafter := endsFraction_append hexponent hr
  have hbefore : ∀ c ∈ (fractionText fraction ++ (text ++ rest)).head?, c.isDigit = false := by
    cases fraction with
    | none => exact fun c hc => (hafter c hc).1
    | some ds =>
      rintro c ⟨⟩
      decide
  have hwholeRead := readWhole_append early hwhole hzero hbefore
  have hfractionRead := readFraction_append early hfraction hafter
  have hexponentRead := readExponent_append early hexponent hr
  simp only [List.append_assoc]
  cases negative with
  | true =>
    simp [read, minusText, hwholeRead, hfractionRead, hexponentRead, bind, Except.bind]
  | false =>
    obtain ⟨c, u, rfl⟩ := List.exists_cons_of_ne_nil hwhole.ne_nil
    have hc : c ≠ '-' := by
      rintro rfl
      exact absurd (hwhole.digit _ List.mem_cons_self) (by decide)
    rw [List.cons_append] at hwholeRead
    simp [read, minusText, hc, hwholeRead, hfractionRead, hexponentRead, bind, Except.bind]

end Numeral

end BranchPrediction.Json
