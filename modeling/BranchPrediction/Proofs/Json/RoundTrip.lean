import BranchPrediction.Proofs.Json.Skipping

/-!
# Values that read back

`Codec.ReadsBack c a` says that the codec reads what it writes of `a` and stops right after it,
whatever comes next. It holds of integers in their range, and passes from the parts to options,
lists and other presentations of a type.
-/

namespace BranchPrediction.Json

/-- What is written of a value is read as the value, up to the end of it. -/
structure Codec.ReadsBack {α : Type} (c : Codec α) (a : α) : Prop where
  opens : Opens (c.write a)
  read : ∀ s rest, skipBlank s = c.write a ++ rest → EndsNumeral rest → c.read s = .ok (a, rest)

variable {α β : Type} {c : Codec α} {a : α}

/-- A whole text may begin and end with blanks. -/
theorem Codec.ReadsBack.ofText {lead trail : List Char} (h : c.ReadsBack a) (hl : IsGap lead)
    (ht : IsGap trail) : c.ofText (String.ofList (lead ++ (c.write a ++ trail))) = .ok a := by
  have hread : c.read (lead ++ (c.write a ++ trail)) = .ok (a, trail) := by
    refine h.read _ trail (h.opens.skipBlank_eq hl trail) ?_
    simpa using endsNumeral_nil.gap ht
  rw [Codec.ofText, String.toList_ofList, hread]
  exact if_pos (skipBlank_of_gap ht)

theorem Codec.ReadsBack.ofText_toText (h : c.ReadsBack a) : c.ofText (c.toText a) = .ok a := by
  simpa [Codec.toText] using h.ofText isGap_nil isGap_nil

theorem Codec.ReadsBack.map {ofBase : α → β} {toBase : β → α} {b : β}
    (h : c.ReadsBack (toBase b)) (hb : ofBase (toBase b) = b) :
    (c.map ofBase toBase).ReadsBack b where
  opens := h.opens
  read s rest hs hr := by
    simp only [Codec.map, h.read s rest hs hr, bind, Except.bind, hb]

theorem eq_zero_of_head_toDigits {n : Nat} (h : (Nat.toDigits 10 n).head? = some '0') : n = 0 := by
  induction n using Nat.strongRecOn with
  | ind n ih =>
    rw [Nat.toDigits_eq_if (by decide)] at h
    by_cases hn : n < 10
    · have hdigit : ∀ n < 10, Nat.digitChar n = '0' → n = 0 := by decide
      rw [if_pos hn] at h
      exact hdigit n hn (by simpa using h)
    · rw [if_neg hn, List.head?_append_of_ne_nil _ Nat.toDigits_ne_nil] at h
      have := ih (n / 10) (by omega) h
      omega

theorem isDigits_toDigits (n : Nat) : IsDigits (Nat.toDigits 10 n) :=
  ⟨Nat.toDigits_ne_nil, fun _ hc => Nat.isDigit_of_mem_toDigits (by decide) (by decide) hc⟩

def Numeral.ofInt (n : Int) : Numeral :=
  ⟨n < 0, Nat.toDigits 10 n.natAbs, none, none⟩

theorem Numeral.written_writeInt (n : Int) : (ofInt n).Written (writeInt n) := by
  have htext : writeInt n = minusText (n < 0) ++ Nat.toDigits 10 n.natAbs ++ fractionText none
      ++ [] := by
    by_cases h : n < 0 <;> simp [writeInt, minusText, fractionText, h]
  rw [htext]
  refine .mk (isDigits_toDigits _) (fun h => ?_) (fun _ h => absurd h (by simp)) .absent
  rw [eq_zero_of_head_toDigits h]
  rfl

theorem Numeral.integer?_ofInt {n : Int} (hmin : -2 ^ 63 ≤ n) (hmax : n < 2 ^ 64) :
    (ofInt n).integer? = some n := by
  have hvalue : valueOf (ofInt n).whole = n.natAbs := Nat.ofDigitChars_ten_toDigits
  rw [integer?, if_neg (by simp [ofInt]), hvalue]
  by_cases h : n < 0
  · have hrange : 0 < n.natAbs ∧ n.natAbs ≤ 2 ^ 63 := by omega
    rw [if_pos (show (ofInt n).negative = true from decide_eq_true h), if_pos hrange]
    exact congrArg some (by omega)
  · have hrange : n.natAbs < 2 ^ 64 := by omega
    rw [if_neg (show ¬ (ofInt n).negative = true by simpa [ofInt] using h), if_pos hrange]
    exact congrArg some (by omega)

/-- An integer between the bounds reads back. The bounds may not be wider than the integers of 64
bits, signed or not. -/
theorem Codec.readsBack_int {least greatest n : Int} (hl : least ≤ n) (hg : n ≤ greatest)
    (hmin : -2 ^ 63 ≤ n) (hmax : n < 2 ^ 64) : (Codec.int least greatest).ReadsBack n where
  opens := (Numeral.written_writeInt n).opens
  read s rest hs hr := by
    have hwritten := Numeral.written_writeInt n
    have hinteger := Numeral.integer?_ofInt hmin hmax
    have hread := Numeral.read_of_written .endOfText hwritten hr
    obtain ⟨c, u, hcu, hc⟩ := hwritten.head
    have hcond : (c = '-' || c.isDigit) = true := by simpa using hc
    replace hs : skipBlank s = writeInt n ++ rest := hs
    rw [hcu, List.cons_append] at hs hread
    show readInt least greatest s = _
    rw [readInt, hs]
    dsimp only
    rw [if_pos hcond, hread]
    simp [bind, Except.bind, Numeral.overflows_of_integer? hinteger, hinteger, hl, hg]

theorem Codec.readsBack_nat {bits n : Nat} (hbits : bits ≤ 64) (hn : n < 2 ^ bits) :
    (Codec.nat bits).ReadsBack n := by
  have hmax : n < 2 ^ 64 := Nat.lt_of_lt_of_le hn (Nat.pow_le_pow_right (by decide) hbits)
  have hint : (Codec.int 0 (2 ^ bits - 1 : Nat)).ReadsBack (n : Int) :=
    Codec.readsBack_int (Int.natCast_nonneg n) (Int.ofNat_le.2 (by omega)) (by omega) (by omega)
  exact hint.map rfl

theorem Codec.readsBack_int32 {n : Int} (hmin : -2 ^ 31 ≤ n) (hmax : n < 2 ^ 31) :
    Codec.int32.ReadsBack n :=
  Codec.readsBack_int hmin (by omega) (by omega) (by omega)

theorem Codec.readsBack_word (w : UInt64) : Codec.word.ReadsBack w :=
  (Codec.readsBack_nat (Nat.le_refl 64) w.toNat_lt).map UInt64.ofNat_toNat

/-- A value whose text does not begin as `null` does reads back as an optional value. -/
theorem Codec.readsBack_some (h : c.ReadsBack a) (hn : (c.write a).head? ≠ some 'n') :
    c.option.ReadsBack (some a) where
  opens := h.opens
  read s rest hs hr := by
    obtain ⟨d, u, hdu, hd, -⟩ := h.opens
    have hne : d ≠ 'n' := by
      rintro rfl
      exact hn (by rw [hdu]; rfl)
    replace hs : skipBlank s = c.write a ++ rest := hs
    have hread : c.read (d :: (u ++ rest)) = .ok (a, rest) :=
      h.read _ rest (by rw [skipBlank_cons hd, hdu, List.cons_append]) hr
    rw [hdu, List.cons_append] at hs
    show readOption c s = _
    rw [readOption, hs]
    dsimp only
    rw [if_neg hne, hread]
    rfl

theorem Codec.readsBack_none (c : Codec α) : c.option.ReadsBack none where
  opens := ⟨'n', _, rfl, by decide, by decide⟩
  read s rest hs _ := by
    replace hs : skipBlank s = 'n' :: (['u', 'l', 'l'] ++ rest) := hs
    show readOption c s = _
    rw [readOption, hs]
    dsimp only
    rw [if_pos rfl, literal_append]
    rfl

theorem Codec.readsBack_option {x : Option α} (h : ∀ a ∈ x, c.ReadsBack a)
    (hn : ∀ a ∈ x, (c.write a).head? ≠ some 'n') : c.option.ReadsBack x := by
  cases x with
  | none => exact c.readsBack_none
  | some a => exact Codec.readsBack_some (h a rfl) (hn a rfl)

theorem Codec.head_write_nat (bits n : Nat) : ((Codec.nat bits).write n).head? ≠ some 'n' := by
  obtain ⟨d, u, hdu, hd⟩ := (Numeral.written_writeInt n).head
  replace hdu : (Codec.nat bits).write n = d :: u := hdu
  rw [hdu]
  rintro ⟨⟩
  exact numberHead_ne hd (by decide) rfl

/-- Texts separated by commas, with another comma in front unless they are the first. -/
def joined (first : Bool) (ts : List (List Char)) : List Char :=
  if first then commaSeparated ts else ts.flatMap (',' :: ·)

@[simp] theorem joined_nil (first : Bool) : joined first [] = [] := by
  cases first <;> rfl

theorem joined_cons (first : Bool) (t : List Char) (ts : List (List Char)) :
    joined first (t :: ts) = leading first ++ (t ++ joined false ts) := by
  have hcomma (t : List Char) (ts : List (List Char)) :
      commaSeparated (t :: ts) = t ++ ts.flatMap (',' :: ·) := by
    induction ts generalizing t with
    | nil => simp [commaSeparated]
    | cons u ts ih =>
      rw [List.flatMap_cons, List.cons_append, ← ih u]
      rfl
  cases first with
  | true => exact hcomma t ts
  | false => simp [joined, leading]

theorem length_le_length_joined {ts : List (List Char)} (h : ∀ t ∈ ts, 0 < t.length)
    (first : Bool) (us : List (List Char)) : ts.length ≤ (joined first (ts ++ us)).length := by
  induction ts generalizing first with
  | nil => exact Nat.zero_le _
  | cons t ts ih =>
    have ht := h t List.mem_cons_self
    have hts := ih (fun u hu => h u (List.mem_cons_of_mem t hu)) false
    rw [List.cons_append, joined_cons]
    simp only [List.length_append, List.length_cons] at hts ⊢
    omega

theorem endsNumeral_joined {ts : List (List Char)} {rest : List Char} (h : EndsNumeral rest) :
    EndsNumeral (joined false ts ++ rest) := by
  cases ts with
  | nil => exact h
  | cons t ts =>
    rw [joined_cons]
    exact endsNumeral_cons (by decide) _

theorem readElements_joined {as : List α} (h : ∀ a ∈ as, c.ReadsBack a) {count : Nat}
    (hc : as.length < count) (first : Bool) (rest : List Char) :
    readElements c count first (joined first (as.map c.write) ++ ']' :: rest) = .ok (as, rest) := by
  induction as generalizing count first with
  | nil =>
    obtain ⟨count, rfl⟩ : ∃ n, count = n + 1 := ⟨count - 1, by omega⟩
    rw [List.map_nil, joined_nil, readElements]
    have hstart : elementStart first ([] ++ ']' :: rest) = .ok none :=
      elementStart_close first isGap_nil rest
    have hend : listEnd ([] ++ ']' :: rest) = .ok rest := listEnd_close isGap_nil rest
    rw [hstart]
    simp only [bind, Except.bind, hend]
  | cons a as ih =>
    rw [List.length_cons] at hc
    obtain ⟨count, rfl⟩ : ∃ n, count = n + 1 := ⟨count - 1, by omega⟩
    have ha := h a List.mem_cons_self
    have hcount : as.length < count := Nat.lt_of_succ_lt_succ hc
    have has := ih (fun b hb => h b (List.mem_cons_of_mem a hb)) hcount false
    have hr : EndsNumeral (joined false (as.map c.write) ++ ']' :: rest) :=
      endsNumeral_joined (endsNumeral_cons (by decide) rest)
    obtain ⟨d, u, hdu, hd, hd'⟩ := ha.opens
    rw [List.map_cons, joined_cons, List.append_assoc, List.append_assoc, hdu, List.cons_append]
    generalize joined false (as.map c.write) ++ ']' :: rest = tail at has hr ⊢
    have hblank : skipBlank (d :: (u ++ tail)) = d :: (u ++ tail) := skipBlank_cons hd _
    have hstart : elementStart first (leading first ++ d :: (u ++ tail))
        = .ok (some (d :: (u ++ tail))) := elementStart_leading first isGap_nil hblank hd'
    have hread : c.read (d :: (u ++ tail)) = .ok (a, tail) :=
      ha.read _ tail (by rw [hblank, hdu, List.cons_append]) hr
    rw [readElements, hstart]
    simp only [bind, Except.bind, hread, has]

theorem Codec.readsBack_list {as : List α} (h : ∀ a ∈ as, c.ReadsBack a) :
    c.list.ReadsBack as where
  opens := ⟨'[', _, rfl, by decide, by decide⟩
  read s rest hs _ := by
    have htext : c.list.write as ++ rest
        = '[' :: (joined true (as.map c.write) ++ ']' :: rest) := by
      simp [Codec.list, joined]
    have hlength : as.length ≤ (joined true (as.map c.write)).length := by
      have hpos : ∀ t ∈ as.map c.write, 0 < t.length := by
        intro t ht
        obtain ⟨a, ha, rfl⟩ := List.mem_map.1 ht
        exact (h a ha).opens.length_pos
      simpa using length_le_length_joined hpos true []
    rw [htext] at hs
    show readList c s = _
    rw [readList, hs]
    refine readElements_joined h ?_ true rest
    rw [List.length_append]
    omega

theorem Codec.readsBack_named {name : α → String} {ofName? : List Char → Option α}
    (hplain : ∀ d ∈ (name a).toList, IsPlain d) (hname : ofName? (name a).toList = some a) :
    (Codec.named name ofName?).ReadsBack a where
  opens := ⟨'"', _, rfl, by decide, by decide⟩
  read s rest hs _ := by
    replace hs : skipBlank s = '"' :: ((name a).toList ++ '"' :: rest) := by
      simpa [Codec.named] using hs
    show readNamed ofName? s = _
    rw [readNamed, hs]
    dsimp only
    rw [if_pos rfl, readQuoted_of_spells (.of_plain hplain)]
    simp only [bind, Except.bind, hname]

end BranchPrediction.Json
