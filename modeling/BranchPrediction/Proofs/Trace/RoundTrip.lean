import BranchPrediction.Trace.Basic

/-!
# Traces and their bytes

Writing a trace and reading it back gives the trace. Reading bytes and writing them again gives
the bytes with the padding of each record cleared (`clearPadding`). Main statement:
`Trace.ofBytes_roundTrip`.
-/

namespace BranchPrediction

theorem littleEndian_ofLittleEndian (bs : List UInt8) :
    littleEndian bs.length (ofLittleEndian bs) = bs := by
  induction bs with
  | nil => rfl
  | cons b bs ih =>
    have hlow : UInt8.ofNat (b.toNat + 256 * ofLittleEndian bs) = b := by
      refine UInt8.toNat_inj.1 ?_
      rw [UInt8.toNat_ofNat', Nat.add_mul_mod_self_left, Nat.mod_eq_of_lt b.toNat_lt]
    have hhigh : (b.toNat + 256 * ofLittleEndian bs) / 256 = ofLittleEndian bs := by
      have := b.toNat_lt
      omega
    rw [List.length_cons, ofLittleEndian, littleEndian, hlow, hhigh, ih]

theorem ofLittleEndian_lt (bs : List UInt8) : ofLittleEndian bs < 256 ^ bs.length := by
  induction bs with
  | nil => exact Nat.one_pos
  | cons b bs ih =>
    have := b.toNat_lt
    rw [ofLittleEndian, List.length_cons, Nat.pow_succ]
    omega

def Record.paddingStart : Nat := 20

/-- The bytes of records with zeros in place of the padding. -/
def clearPadding (bs : List UInt8) : List UInt8 :=
  bs.mapIdx fun i b => if i % Record.byteSize < Record.paddingStart then b else 0

theorem clearPadding_append {as : List UInt8} (h : as.length = Record.byteSize)
    (bs : List UInt8) : clearPadding (as ++ bs) = clearPadding as ++ clearPadding bs := by
  simp only [clearPadding, List.mapIdx_append, h, Nat.add_mod_right]

theorem clearPadding_record {bs : List UInt8} (h : bs.length = Record.byteSize) :
    clearPadding bs = bs.take 20 ++ List.replicate 4 0 := by
  have hsize : bs.length = 24 := h
  refine List.ext_getElem (by simp [clearPadding, hsize]) fun i hi _ => ?_
  have hi : i < 24 := by simpa [clearPadding, hsize] using hi
  rw [List.getElem_append]
  simp only [clearPadding, List.getElem_mapIdx, Record.byteSize, Record.paddingStart,
    Nat.mod_eq_of_lt hi, List.length_take, hsize, List.getElem_take, List.getElem_replicate]
  rfl

/-! ## Records -/

/-- The bytes of a record that is read are the bytes it is read from, padding apart. -/
theorem Record.toBytes_ofBytes {bs : List UInt8} (h : byteSize ≤ bs.length) :
    (ofBytes bs).toBytes = clearPadding (bs.take byteSize) := by
  have hsize : 24 ≤ bs.length := h
  have word (as : List UInt8) (n : Nat) (hn : as.length = n) :
      littleEndian n (ofLittleEndian as) = as ∧ ofLittleEndian as < 256 ^ n := by
    subst hn
    exact ⟨littleEndian_ofLittleEndian as, ofLittleEndian_lt as⟩
  obtain ⟨hpc, hpc'⟩ := word (bs.take 8) 8 (by simp; omega)
  obtain ⟨htarget, htarget'⟩ := word ((bs.drop 8).take 8) 8 (by simp; omega)
  obtain ⟨hflags, hflags'⟩ := word ((bs.drop 16).take 4) 4 (by simp; omega)
  have hparts : bs.take 20 = bs.take 8 ++ (bs.drop 8).take 8 ++ (bs.drop 16).take 4 := by
    rw [← List.take_add, ← List.take_add]
  -- bytes 0 to 20 are the three words, the rest is padding
  rw [clearPadding_record (by rw [List.length_take]; exact Nat.min_eq_left h), List.take_take,
    show min 20 byteSize = 20 from rfl, hparts]
  simp only [toBytes, ofBytes, UInt64.toNat_ofNat', UInt32.toNat_ofNat']
  rw [Nat.mod_eq_of_lt (by omega), Nat.mod_eq_of_lt (by omega), Nat.mod_eq_of_lt (by omega), hpc,
    htarget, hflags]

theorem Record.ofBytes_append {as : List UInt8} (h : byteSize ≤ as.length) (bs : List UInt8) :
    ofBytes (as ++ bs) = ofBytes as := by
  have hsize : 24 ≤ as.length := h
  have part (i n : Nat) (hi : i + n ≤ 24) :
      ((as ++ bs).drop i).take n = (as.drop i).take n := by
    rw [List.drop_append_of_le_length (by omega),
      List.take_append_of_le_length (by rw [List.length_drop]; omega)]
  have hpc : (as ++ bs).take 8 = as.take 8 := part 0 8 (by decide)
  simp only [ofBytes, hpc, part 8 8 (by decide), part 16 4 (by decide)]

@[simp] theorem length_recordsOfBytes (n : Nat) (bs : List UInt8) :
    (recordsOfBytes n bs).length = n := by
  induction n generalizing bs with
  | zero => rfl
  | succ n ih => rw [recordsOfBytes, List.length_cons, ih]

@[simp] theorem length_recordsToBytes (rs : List Record) :
    (recordsToBytes rs).length = rs.length * Record.byteSize := by
  induction rs with
  | nil => rfl
  | cons r rs ih =>
    rw [recordsToBytes, List.flatMap_cons, List.length_append, Record.length_toBytes,
      List.length_cons, Nat.succ_mul, Nat.add_comm]
    exact congrArg (· + Record.byteSize) ih

theorem recordsOfBytes_recordsToBytes (rs : List Record) :
    recordsOfBytes rs.length (recordsToBytes rs) = rs := by
  induction rs with
  | nil => rfl
  | cons r rs ih =>
    have hdrop : (r.toBytes ++ recordsToBytes rs).drop Record.byteSize = recordsToBytes rs := by
      rw [← r.length_toBytes, List.drop_left]
    rw [show recordsToBytes (r :: rs) = r.toBytes ++ recordsToBytes rs from List.flatMap_cons,
      List.length_cons, recordsOfBytes, Record.ofBytes_toBytes_append, hdrop, ih]

theorem recordsToBytes_recordsOfBytes {n : Nat} {bs : List UInt8}
    (h : bs.length = n * Record.byteSize) :
    recordsToBytes (recordsOfBytes n bs) = clearPadding bs := by
  induction n generalizing bs with
  | zero =>
    obtain rfl : bs = [] := List.eq_nil_of_length_eq_zero (by simpa using h)
    rfl
  | succ n ih =>
    rw [Nat.succ_mul] at h
    have hfirst : (bs.take Record.byteSize).length = Record.byteSize := by
      rw [List.length_take]
      exact Nat.min_eq_left (by omega)
    have hrest : (bs.drop Record.byteSize).length = n * Record.byteSize := by
      rw [List.length_drop]
      omega
    calc recordsToBytes (recordsOfBytes (n + 1) bs)
      _ = (Record.ofBytes bs).toBytes
          ++ recordsToBytes (recordsOfBytes n (bs.drop Record.byteSize)) := List.flatMap_cons
      _ = clearPadding (bs.take Record.byteSize) ++ clearPadding (bs.drop Record.byteSize) := by
        rw [Record.toBytes_ofBytes (by omega), ih hrest]
      _ = clearPadding bs := by rw [← clearPadding_append hfirst, List.take_append_drop]

theorem recordsOfBytes_append {n : Nat} {as : List UInt8} (h : as.length = n * Record.byteSize)
    (m : Nat) (bs : List UInt8) :
    recordsOfBytes (n + m) (as ++ bs) = recordsOfBytes n as ++ recordsOfBytes m bs := by
  induction n generalizing as with
  | zero =>
    obtain rfl : as = [] := List.eq_nil_of_length_eq_zero (by simpa using h)
    rw [Nat.zero_add]
    rfl
  | succ n ih =>
    rw [Nat.succ_mul] at h
    have hle : Record.byteSize ≤ as.length := by omega
    have hrest : (as.drop Record.byteSize).length = n * Record.byteSize := by
      rw [List.length_drop]
      omega
    rw [Nat.succ_add, recordsOfBytes, recordsOfBytes, Record.ofBytes_append hle,
      List.drop_append_of_le_length hle, ih hrest, List.cons_append]

namespace Trace

theorem ofBytes_of_length {bs : List UInt8} {n : Nat} (name : String)
    (h : bs.length = n * Record.byteSize) : ofBytes name bs = .ok ⟨name, recordsOfBytes n bs⟩ := by
  have hdiv : bs.length / Record.byteSize = n := by
    rw [h, Nat.mul_div_cancel n (by decide)]
  unfold ofBytes recordsOfBytes?
  rw [if_pos (by rw [h, Nat.mul_mod_left]), hdiv]

theorem ofBytes_toBytes (t : Trace) : ofBytes t.name t.toBytes = .ok t := by
  rw [toBytes, ofBytes_of_length t.name (length_recordsToBytes t.records),
    recordsOfBytes_recordsToBytes]

theorem ofBytes_eq_error_iff (name : String) (bs : List UInt8) :
    ofBytes name bs = .error (.traceLength name bs.length) ↔ bs.length % Record.byteSize ≠ 0 := by
  unfold ofBytes recordsOfBytes?
  by_cases h : bs.length % Record.byteSize = 0 <;> simp [h]

/-- Writing a trace and reading the bytes gives the trace. Bytes that are not a whole number of
records are refused with their number. Other bytes give a record for each 24 of them, and writing
these gives the bytes with the padding cleared, which read as the same records again. Bytes that
are put together give the records put together. -/
theorem ofBytes_roundTrip (name : String) :
    (∀ records, ofBytes name (toBytes ⟨name, records⟩) = .ok ⟨name, records⟩) ∧
    (∀ bs : List UInt8, bs.length % Record.byteSize ≠ 0 ↔
      ofBytes name bs = .error (.traceLength name bs.length)) ∧
    (∀ bs : List UInt8, bs.length % Record.byteSize = 0 → ∃ t, ofBytes name bs = .ok t ∧
      t.name = name ∧ t.records.length = bs.length / Record.byteSize ∧
      t.toBytes = clearPadding bs ∧ ofBytes name t.toBytes = .ok t) ∧
    ∀ as bs : List UInt8, as.length % Record.byteSize = 0 → bs.length % Record.byteSize = 0 →
      ∃ s t, ofBytes name as = .ok s ∧ ofBytes name bs = .ok t ∧
        ofBytes name (as ++ bs) = .ok ⟨name, s.records ++ t.records⟩ := by
  have whole {bs : List UInt8} (h : bs.length % Record.byteSize = 0) :
      bs.length = bs.length / Record.byteSize * Record.byteSize :=
    (Nat.div_mul_cancel (Nat.dvd_of_mod_eq_zero h)).symm
  refine ⟨fun records => ofBytes_toBytes ⟨name, records⟩,
    fun bs => (ofBytes_eq_error_iff name bs).symm, fun bs h => ?_, fun as bs ha hb => ?_⟩
  · have hlength := whole h
    generalize bs.length / Record.byteSize = n at hlength ⊢
    exact ⟨⟨name, recordsOfBytes n bs⟩, ofBytes_of_length name hlength, rfl,
      length_recordsOfBytes n bs, recordsToBytes_recordsOfBytes hlength, ofBytes_toBytes _⟩
  · have hlength : (as ++ bs).length = (as.length / Record.byteSize
        + bs.length / Record.byteSize) * Record.byteSize := by
      rw [List.length_append, Nat.add_mul, ← whole ha, ← whole hb]
    refine ⟨_, _, ofBytes_of_length name (whole ha), ofBytes_of_length name (whole hb), ?_⟩
    rw [ofBytes_of_length name hlength, recordsOfBytes_append (whole ha)]

/-- The padding of the only record is 1, 2, 3, 4, and one byte more is too many. -/
theorem ofBytes_roundTrip_small :
    let bs : List UInt8 := List.replicate 8 7 ++ List.replicate 8 9 ++ [33, 0, 0, 1, 1, 2, 3, 4]
    bs.length % Record.byteSize = 0 ∧
      (∃ t, ofBytes "a" bs = .ok t ∧ t.records.length = 1 ∧
        t.toBytes = List.replicate 8 7 ++ List.replicate 8 9 ++ [33, 0, 0, 1, 0, 0, 0, 0]) ∧
      (∃ s t, ofBytes "a" bs = .ok s ∧ ofBytes "a" [] = .ok t ∧
        ofBytes "a" (bs ++ []) = .ok ⟨"a", s.records ++ t.records⟩) ∧
      ofBytes "a" (5 :: bs) = .error (.traceLength "a" 25) := by
  intro bs
  obtain ⟨-, hrefused, hread, happend⟩ := ofBytes_roundTrip "a"
  obtain ⟨t, ht, -, hlength, hbytes, -⟩ := hread bs (by decide)
  exact ⟨by decide, ⟨t, ht, hlength.trans (by decide), hbytes.trans (by decide)⟩,
    happend bs [] (by decide) (by decide), (hrefused (5 :: bs)).1 (by decide)⟩

end Trace

end BranchPrediction
