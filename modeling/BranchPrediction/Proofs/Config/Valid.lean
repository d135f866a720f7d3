import BranchPrediction.Config.Validation

/-!
# Valid configurations

`Config.Valid` lists what a configuration is asked for, part by part, and `validate` accepts
exactly the configurations that are `Valid`. What a predictor relies on is read off here: the
sizes are powers of two, the tags leave room for a fold of one bit less, and the global history
holds one bit more than the longest span.
-/

namespace BranchPrediction

def ValidWidth (bits : Nat) : Prop := 1 ≤ bits ∧ bits ≤ 8

structure BaseConfig.Valid (c : BaseConfig) : Prop where
  size : isPowerOfTwo c.size = true
  counter : ValidWidth c.counter.bits

structure TableConfig.Valid (c : TableConfig) : Prop where
  size : isPowerOfTwo c.size = true
  two_le_size : 2 ≤ c.size
  two_le_tagBits : 2 ≤ c.tagBits
  tagBits_le : c.tagBits ≤ 16
  counter : ValidWidth c.counter.bits
  useful : ValidWidth c.usefulBits

structure OverlayConfig.Valid (c : OverlayConfig) : Prop where
  perceptrons : 0 < c.perceptrons
  localRegisters : 0 < c.localRegisters
  weight : ValidWidth c.weightBits
  one_le_localLength : 1 ≤ c.localLength
  localLength_le : c.localLength ≤ 32
  threshold : 0 ≤ c.threshold

structure PathConfig.Valid (c : PathConfig) : Prop where
  length : 0 < c.length
  bits : 0 < c.bitsPerBranch
  bits_le_length : c.bitsPerBranch ≤ c.length
  bits_le_word : c.bitsPerBranch ≤ 64
  align : c.alignBits < 64

structure Config.Valid (c : Config) : Prop where
  base : c.base.Valid
  tables_ne : c.tables ≠ []
  tables : ∀ t ∈ c.tables, t.Valid
  /-- the history lengths are positive and increase -/
  lengths : (0 :: c.historyLengths).Pairwise (· < ·)
  overlay : ∀ o ∈ c.overlay, o.Valid
  path : ∀ h ∈ c.path, h.Valid
  reset_pos : 0 < c.usefulResetLog2
  reset_le : c.usefulResetLog2 ≤ 63

section
variable {ε : Type}

theorem bind_eq_ok {x y : Except ε Unit} : (do x; y) = .ok () ↔ x = .ok () ∧ y = .ok () := by
  cases x <;> simp [bind, Except.bind]

theorem forM_eq_ok {α : Type} {f : α → Except ε Unit} {l : List α} :
    l.forM f = .ok () ↔ ∀ a ∈ l, f a = .ok () := by
  induction l with
  | nil => simp [pure, Except.pure]
  | cons a l ih =>
    rw [List.forM_eq_forM] at ih ⊢
    rw [List.forM_cons, bind_eq_ok, ih, List.forall_mem_cons]

end

theorem error_ite_eq_ok {ε : Type} {P : Prop} [Decidable P] {e : ε} {x : Except ε Unit} :
    (if P then .error e else x) = .ok () ↔ ¬ P ∧ x = .ok () := by
  split <;> simp_all

theorem validateOption_eq_ok {α : Type} {f : α → Except ConfigError Unit} {x : Option α} :
    validateOption f x = .ok () ↔ ∀ a ∈ x, f a = .ok () := by
  cases x <;> simp [validateOption]

theorem validateWidth_eq_ok {bits : Nat} : validateWidth bits = .ok () ↔ ValidWidth bits := by
  unfold validateWidth ValidWidth
  split <;> simp_all

theorem BaseConfig.validate_eq_ok {c : BaseConfig} : c.validate = .ok () ↔ c.Valid := by
  unfold BaseConfig.validate
  rw [error_ite_eq_ok, validateWidth_eq_ok]
  constructor
  · rintro ⟨h, hw⟩
    exact ⟨by simpa using h, hw⟩
  · rintro ⟨h, hw⟩
    exact ⟨by simp [h], hw⟩

theorem TableConfig.validate_eq_ok {c : TableConfig} : c.validate = .ok () ↔ c.Valid := by
  unfold TableConfig.validate
  rw [error_ite_eq_ok, error_ite_eq_ok, bind_eq_ok, validateWidth_eq_ok, validateWidth_eq_ok]
  constructor
  · rintro ⟨h, ht, hc, hu⟩
    simp only [Bool.or_eq_true, Bool.not_eq_true', decide_eq_true_eq, not_or] at h
    exact ⟨by simpa using h.1, by omega, by omega, by omega, hc, hu⟩
  · rintro ⟨hs, h2, ht, ht', hc, hu⟩
    exact ⟨by simp [hs]; omega, by omega, hc, hu⟩

theorem OverlayConfig.validate_eq_ok {c : OverlayConfig} : c.validate = .ok () ↔ c.Valid := by
  unfold OverlayConfig.validate
  rw [error_ite_eq_ok, bind_eq_ok, validateWidth_eq_ok, error_ite_eq_ok, error_ite_eq_ok]
  constructor
  · rintro ⟨h, hw, hl, ht, -⟩
    exact ⟨by omega, by omega, hw, by omega, by omega, by omega⟩
  · rintro ⟨hp, hr, hw, hl, hl', ht⟩
    exact ⟨by omega, hw, by omega, by omega, rfl⟩

theorem PathConfig.validate_eq_ok {c : PathConfig} : c.validate = .ok () ↔ c.Valid := by
  unfold PathConfig.validate
  rw [error_ite_eq_ok]
  constructor
  · rintro ⟨h, -⟩
    exact ⟨by omega, by omega, by omega, by omega, by omega⟩
  · rintro ⟨hl, hb, hbl, hbw, ha⟩
    exact ⟨by omega, rfl⟩

theorem increases_eq_true {l : List Nat} : increases l = true ↔ l.Pairwise (· < ·) := by
  match l with
  | [] => simp [increases]
  | [a] => simp [increases]
  | a :: b :: rest =>
    have ih := increases_eq_true (l := b :: rest)
    simp only [increases, Bool.and_eq_true, decide_eq_true_eq, ih, List.pairwise_cons,
      List.mem_cons, forall_eq_or_imp]
    constructor
    · rintro ⟨hab, hb, hr⟩
      exact ⟨⟨hab, fun x hx => Nat.lt_trans hab (hb x hx)⟩, hb, hr⟩
    · rintro ⟨⟨hab, -⟩, hb, hr⟩
      exact ⟨hab, hb, hr⟩

theorem Config.validateTables_eq_ok {c : Config} : c.validateTables = .ok () ↔
    c.tables ≠ [] ∧ (∀ t ∈ c.tables, t.Valid) ∧ (0 :: c.historyLengths).Pairwise (· < ·) := by
  unfold Config.validateTables
  rw [error_ite_eq_ok, bind_eq_ok, forM_eq_ok, error_ite_eq_ok, ← increases_eq_true]
  simp [TableConfig.validate_eq_ok]

/-- Validation accepts exactly the valid configurations. -/
theorem Config.validate_eq_ok {c : Config} : c.validate = .ok () ↔ c.Valid := by
  unfold Config.validate
  rw [bind_eq_ok, bind_eq_ok, bind_eq_ok, bind_eq_ok, error_ite_eq_ok, validateTables_eq_ok,
    BaseConfig.validate_eq_ok, validateOption_eq_ok, validateOption_eq_ok]
  simp only [OverlayConfig.validate_eq_ok, PathConfig.validate_eq_ok]
  constructor
  · rintro ⟨hb, ⟨hne, ht, hl⟩, ho, hp, hr, -⟩
    exact ⟨hb, hne, ht, hl, ho, hp, by omega, by omega⟩
  · rintro ⟨hb, hne, ht, hl, ho, hp, hr, hr'⟩
    exact ⟨hb, ⟨hne, ht, hl⟩, ho, hp, by omega, trivial⟩

/-! ## What a valid configuration gives -/

theorem pos_of_isPowerOfTwo {n : Nat} (h : isPowerOfTwo n = true) : 0 < n := by
  obtain ⟨k, rfl⟩ := isPowerOfTwo_iff.1 h
  exact Nat.two_pow_pos k

theorem two_pow_log2_of_isPowerOfTwo {n : Nat} (h : isPowerOfTwo n = true) : 2 ^ n.log2 = n :=
  (eq_of_beq h).symm

theorem TableConfig.Valid.log2_size_pos {c : TableConfig} (h : c.Valid) : 0 < c.size.log2 := by
  have hs := two_pow_log2_of_isPowerOfTwo h.size
  have h2 := h.two_le_size
  rcases Nat.eq_zero_or_pos c.size.log2 with h0 | h0
  · rw [h0] at hs; omega
  · exact h0

theorem le_foldl_max {l : List Nat} {x a : Nat} (h : x ≤ a ∨ x ∈ l) : x ≤ l.foldl max a := by
  induction l generalizing a with
  | nil => simpa using h
  | cons b l ih =>
    apply ih
    rcases h with h | h
    · exact .inl (by omega)
    · rcases List.mem_cons.1 h with rfl | h
      · exact .inl (by omega)
      · exact .inr h

theorem Config.historyLength_lt {c : Config} {t : TableConfig} (h : t ∈ c.tables) :
    t.historyLength < c.globalLength :=
  Nat.lt_succ_of_le (le_foldl_max (.inr (List.mem_map_of_mem h)))

theorem Config.Valid.historyLength_pos {c : Config} (h : c.Valid) {t : TableConfig}
    (ht : t ∈ c.tables) : 0 < t.historyLength :=
  (List.pairwise_cons.1 h.lengths).1 _ (List.mem_map_of_mem ht)

def Config.small : Config where
  base := ⟨⟨2, none⟩, 2⟩
  tables := [⟨2, 1, 2, 1, ⟨2, none⟩⟩, ⟨4, 3, 3, 2, ⟨3, none⟩⟩]
  overlay := some ⟨1, 2, 3, 1, 2, 1⟩
  path := some ⟨4, 2, 1⟩
  seed := 1
  usefulResetLog2 := 2

end BranchPrediction
