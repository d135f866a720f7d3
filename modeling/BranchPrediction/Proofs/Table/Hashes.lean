import Mathlib.Data.Set.Function
import Mathlib.Order.Interval.Set.Defs
import BranchPrediction.Proofs.Predictor.CheckedParts

/-!
# Hashes of neighbouring addresses

Every hash of an address is a `foldHash`: the bits above the width of the hash are put over those
below, and so are bits of the histories. Addresses of one aligned block have the same bits above. So
on a block the hash is an exclusive or with a constant (`foldHash_add`), and no two addresses of the
block meet (`hashes_bijOn`).
-/

namespace BranchPrediction

/-- Block `k` when the addresses are cut into blocks of a size. -/
def block (size k : Nat) : Set UInt64 :=
  {pc | k * size ≤ pc.toNat ∧ pc.toNat < (k + 1) * size}

/-- The addresses of remainder `r` modulo 4 in block `k` of `2 ^ (bits + 2)`. -/
def lane (bits k r : Nat) : Set UInt64 :=
  {pc | ∃ j < 2 ^ bits, pc.toNat = k * 2 ^ (bits + 2) + 4 * j + r}

/-- The hash of a number to `bits` bits, with the bits of `salt` put over it. -/
def foldHash (bits salt x : Nat) : Nat :=
  (x ^^^ (x >>> bits) ^^^ salt) % 2 ^ bits

/-- The bits above the width are the number of the block. -/
theorem foldHash_add {bits j : Nat} (salt k : Nat) (h : j < 2 ^ bits) :
    foldHash bits salt (k * 2 ^ bits + j) = j ^^^ ((k ^^^ salt) % 2 ^ bits) := by
  have hhigh : (k * 2 ^ bits + j) >>> bits = k := by
    rw [Nat.shiftRight_eq_div_pow, Nat.mul_comm, Nat.mul_add_div (Nat.two_pow_pos bits),
      Nat.div_eq_of_lt h, Nat.add_zero]
  have hlow : (k * 2 ^ bits + j) % 2 ^ bits = j := by
    rw [Nat.mul_comm, Nat.mul_add_mod, Nat.mod_eq_of_lt h]
  rw [foldHash, hhigh, Nat.xor_assoc, Nat.xor_mod_two_pow, hlow]

theorem xor_bijOn {bits a : Nat} (h : a < 2 ^ bits) :
    Set.BijOn (· ^^^ a) (Set.Iio (2 ^ bits)) (Set.Iio (2 ^ bits)) := by
  have hcancel : Set.LeftInvOn (· ^^^ a) (· ^^^ a) (Set.Iio (2 ^ bits)) :=
    fun j _ => show j ^^^ a ^^^ a = j by rw [Nat.xor_assoc, Nat.xor_self, Nat.xor_zero]
  have hmaps : Set.MapsTo (· ^^^ a) (Set.Iio (2 ^ bits)) (Set.Iio (2 ^ bits)) :=
    fun j hj => Nat.xor_lt_two_pow hj h
  exact Set.InvOn.bijOn ⟨hcancel, hcancel⟩ hmaps hmaps

theorem bijOn_of_numbered {s : Set UInt64} {n : Nat} {address g : Nat → Nat} {f : UInt64 → Nat}
    (hs : ∀ pc : UInt64, pc ∈ s ↔ ∃ j < n, pc.toNat = address j)
    (hlt : ∀ j < n, address j < 2 ^ 64)
    (hf : ∀ pc : UInt64, ∀ j < n, pc.toNat = address j → f pc = g j)
    (hg : Set.BijOn g (Set.Iio n) (Set.Iio n)) : Set.BijOn f s (Set.Iio n) := by
  refine ⟨fun pc hpc => ?_, fun pc hpc pc' hpc' heq => ?_, fun y hy => ?_⟩
  · obtain ⟨j, hj, hpcj⟩ := (hs pc).1 hpc
    rw [hf pc j hj hpcj]
    exact hg.mapsTo hj
  · obtain ⟨j, hj, hpcj⟩ := (hs pc).1 hpc
    obtain ⟨j', hj', hpcj'⟩ := (hs pc').1 hpc'
    rw [hf pc j hj hpcj, hf pc' j' hj' hpcj'] at heq
    obtain rfl := hg.injOn hj hj' heq
    exact UInt64.toNat_inj.1 (hpcj.trans hpcj'.symm)
  · obtain ⟨j, hj, rfl⟩ := hg.surjOn hy
    have hpc : (UInt64.ofNat (address j)).toNat = address j :=
      UInt64.toNat_ofNat_of_lt' (hlt j hj)
    exact ⟨.ofNat (address j), (hs _).2 ⟨j, hj, hpc⟩, hf _ j hj hpc⟩

theorem mem_block {size k : Nat} {pc : UInt64} :
    pc ∈ block size k ↔ ∃ j < size, pc.toNat = k * size + j := by
  show k * size ≤ pc.toNat ∧ pc.toNat < (k + 1) * size ↔ _
  rw [Nat.add_mul, Nat.one_mul]
  constructor
  · rintro ⟨hlow, hhigh⟩
    exact ⟨pc.toNat - k * size, by omega, by omega⟩
  · rintro ⟨j, hj, hpc⟩
    omega

theorem bijOn_block {bits salt k : Nat} (hk : (k + 1) * 2 ^ bits ≤ 2 ^ 64) {f : UInt64 → Nat}
    (hf : ∀ pc, f pc = foldHash bits salt pc.toNat) :
    Set.BijOn f (block (2 ^ bits) k) (Set.Iio (2 ^ bits)) := by
  refine bijOn_of_numbered (fun _ => mem_block) (fun j hj => ?_) (fun pc j hj hpc => ?_)
    (xor_bijOn (Nat.mod_lt (k ^^^ salt) (Nat.two_pow_pos bits)))
  · rw [Nat.add_mul, Nat.one_mul] at hk
    omega
  · rw [hf, hpc, foldHash_add salt k hj]

theorem bijOn_lane {bits salt k r : Nat} (hr : r < 4) (hk : (k + 1) * 2 ^ (bits + 2) ≤ 2 ^ 64)
    {f : UInt64 → Nat} (hf : ∀ pc, f pc = foldHash bits salt (pc.toNat >>> 2)) :
    Set.BijOn f (lane bits k r) (Set.Iio (2 ^ bits)) := by
  have hpow : ∀ n, n * 2 ^ (bits + 2) = 4 * (n * 2 ^ bits) :=
    fun n => by rw [Nat.pow_add, ← Nat.mul_assoc, Nat.mul_comm]
  refine bijOn_of_numbered (fun _ => Iff.rfl) (fun j hj => ?_) (fun pc j hj hpc => ?_)
    (xor_bijOn (Nat.mod_lt (k ^^^ salt) (Nat.two_pow_pos bits)))
  · rw [hpow, Nat.add_mul, Nat.one_mul] at hk
    rw [hpow]
    omega
  · have hshift : pc.toNat >>> 2 = k * 2 ^ bits + j := by
      rw [hpc, hpow, Nat.shiftRight_eq_div_pow]
      omega
    rw [hf, hshift, foldHash_add salt k hj]

theorem BaseTable.index_eq_foldHash {b : BaseTable} (h : isPowerOfTwo b.config.size = true)
    (pc : UInt64) : b.index pc = foldHash b.config.size.log2 0 pc.toNat := by
  have hmask : b.mask = 2 ^ b.config.size.log2 - 1 := by
    rw [two_pow_log2_of_isPowerOfTwo h, mask]
  rw [index, hmask, Nat.and_two_pow_sub_one_eq_mod, foldHash, Nat.xor_zero]

theorem TaggedTable.index_eq_foldHash {t : TaggedTable} (h : isPowerOfTwo t.config.size = true)
    (pc : UInt64) (path : Option Register) : t.index pc path =
      foldHash t.config.size.log2 (t.indexFold.value ^^^ t.pathHash path) pc.toNat := by
  have hmask : t.mask = 2 ^ t.config.size.log2 - 1 := by
    rw [two_pow_log2_of_isPowerOfTwo h, mask]
  rw [index, hmask, Nat.and_two_pow_sub_one_eq_mod, foldHash, indexBits, Nat.xor_assoc]

theorem TaggedTable.tag_eq_foldHash {t : TaggedTable} (h : t.config.tagBits ≤ 16) (pc : UInt64) :
    t.tag pc = foldHash t.config.tagBits (t.tagFold.value ^^^ (t.shortTagFold.value <<< 1))
      (pc.toNat >>> 2) := by
  rw [tag, Nat.min_eq_left h, foldHash, Nat.shiftRight_add, Nat.xor_assoc]

/-- Whatever the histories hold, the addresses of a block have different indices, and the addresses
of a lane have different tags, of all values that there are. On a table with folds of its own
widths, the hashes do not fail. -/
theorem hashes_bijOn :
    (∀ b : BaseTable, isPowerOfTwo b.config.size = true →
      (∀ k, (k + 1) * b.config.size ≤ 2 ^ 64 →
        Set.BijOn b.index (block b.config.size k) (Set.Iio b.config.size)) ∧
      (b.config.size < 2 ^ 64 → ∀ pc, b.index? pc = some (b.index pc))) ∧
    (∀ t : TaggedTable, isPowerOfTwo t.config.size = true → ∀ path,
      (∀ k, (k + 1) * t.config.size ≤ 2 ^ 64 →
        Set.BijOn (t.index · path) (block t.config.size k) (Set.Iio t.config.size)) ∧
      (t.Shaped → 2 ≤ t.config.size → t.config.size < 2 ^ 64 →
        ∀ pc, t.index? pc path = some (t.index pc path))) ∧
    ∀ t : TaggedTable, t.config.tagBits ≤ 16 →
      (∀ k r, r < 4 → (k + 1) * 2 ^ (t.config.tagBits + 2) ≤ 2 ^ 64 →
        Set.BijOn t.tag (lane t.config.tagBits k r) (Set.Iio (2 ^ t.config.tagBits))) ∧
      (t.Shaped → 2 ≤ t.config.tagBits → ∀ pc, t.tag? pc = some (t.tag pc)) := by
  refine ⟨fun b hb => ⟨fun k hk => ?_, fun hlt pc => ?_⟩,
    fun t ht path => ⟨fun k hk => ?_, fun hshape htwo hlt pc => ?_⟩,
    fun t ht => ⟨fun k r hr hk => ?_, fun hshape htwo pc => hshape.tag?_eq_some htwo ht pc⟩⟩
  · have hsize := two_pow_log2_of_isPowerOfTwo hb
    have hbij := bijOn_block (hsize.symm ▸ hk) (BaseTable.index_eq_foldHash hb)
    rwa [hsize] at hbij
  · have hpos := pos_of_isPowerOfTwo hb
    exact if_pos ⟨hb, (Nat.log2_lt (by omega)).2 hlt⟩
  · have hsize := two_pow_log2_of_isPowerOfTwo ht
    have hbij := bijOn_block (hsize.symm ▸ hk) fun pc => TaggedTable.index_eq_foldHash ht pc path
    rwa [hsize] at hbij
  · have hpos := pos_of_isPowerOfTwo ht
    exact hshape.index?_eq_some ht ((Nat.le_log2 (by omega)).2 htwo)
      ((Nat.log2_lt (by omega)).2 hlt) pc path
  · exact bijOn_lane hr hk (TaggedTable.tag_eq_foldHash ht)

/-- Folds and path of a table in the middle of a run. -/
theorem hashes_bijOn_small :
    let b : BaseTable := .ofConfig ⟨⟨2, none⟩, 8⟩
    let t : TaggedTable := { TaggedTable.ofConfig ⟨4, 3, 3, 2, ⟨3, none⟩⟩ true with
      indexFold := ⟨2, 3, 2#2⟩, tagFold := ⟨3, 3, 5#3⟩, shortTagFold := ⟨2, 3, 3#2⟩ }
    let path : Option Register := some ⟨5, 22#5⟩
    Set.BijOn b.index (block 8 7) (Set.Iio 8) ∧
      Set.BijOn (t.index · path) (block 4 (2 ^ 62 - 1)) (Set.Iio 4) ∧
      Set.BijOn t.tag (lane 3 5 2) (Set.Iio 8) ∧
      t.index? 22 path = some (t.index 22 path) ∧ t.tag? 22 = some (t.tag 22) := by
  intro b t path
  obtain ⟨hbase, hindex, htag⟩ := hashes_bijOn
  have hshape : t.Shaped := ⟨by decide, ⟨by decide, rfl⟩, ⟨rfl, rfl⟩, ⟨rfl, rfl⟩⟩
  obtain ⟨hblock, hindex?⟩ := hindex t (by decide) path
  obtain ⟨hlane, htag?⟩ := htag t (by decide)
  exact ⟨(hbase b (by decide)).1 7 (by decide), hblock (2 ^ 62 - 1) (by decide),
    hlane 5 2 (by decide) (by decide), hindex? hshape (by decide) (by decide) 22,
    htag? hshape (by decide) 22⟩

/-- Tags are kept in 16 bits. In a table that asks for 17, two addresses of a lane have the same
tag. -/
theorem tag_not_bijOn_wide : ∃ t, TaggedTable.ofConfig? ⟨2, 1, 17, 2, ⟨3, none⟩⟩ false = some t ∧
    (0 + 1) * 2 ^ (t.config.tagBits + 2) ≤ 2 ^ 64 ∧
    ¬ Set.BijOn t.tag (lane t.config.tagBits 0 0) (Set.Iio (2 ^ t.config.tagBits)) := by
  refine ⟨.ofConfig ⟨2, 1, 17, 2, ⟨3, none⟩⟩ false, rfl, by decide, fun h => ?_⟩
  have hzero : (0 : UInt64) ∈ lane 17 0 0 := ⟨0, by decide, rfl⟩
  have hother : (262144 : UInt64) ∈ lane 17 0 0 := ⟨65536, by decide, rfl⟩
  exact absurd (h.injOn hzero hother (by decide)) (by decide)

end BranchPrediction
