import BranchPrediction.Predictor.Checked
import BranchPrediction.Proofs.History.ResidueFold
import BranchPrediction.Proofs.Overlay.Outputs

/-!
# Checked operations of the parts

On a well-formed part of a valid configuration that fits, each checked operation gives what its
unchecked partner gives. Counters and weights have at most eight bits, so the sums on the way stay
far below the limit; every index is masked or reduced to the size of its table.
-/

namespace BranchPrediction

theorem mapM_eq_some {α β : Type} {f : α → Option β} {g : α → β} {l : List α}
    (h : ∀ a ∈ l, f a = some (g a)) : l.mapM f = some (l.map g) := by
  induction l with
  | nil => rfl
  | cons a l ih =>
    rw [List.forall_mem_cons] at h
    rw [List.mapM_cons, h.1, ih h.2]
    rfl

theorem mapM_option_eq_some {α β : Type} {f : α → Option β} {g : α → β} {x : Option α}
    (h : ∀ a ∈ x, f a = some (g a)) : x.mapM f = some (x.map g) := by
  cases x with
  | none => rfl
  | some a => rw [Option.mapM_some, h a rfl]; rfl

theorem PathHistory.ofConfig?_eq_some {c : PathConfig} (h : c.fits = true) :
    ofConfig? c = some (ofConfig c) := by
  unfold ofConfig? Register.zero?
  rw [if_pos (show fitsHistory c.length = true from h)]
  rfl

theorem ValidWidth.two_pow_sub_one_le {bits : Nat} (h : ValidWidth bits) : 2 ^ bits - 1 ≤ 255 :=
  Nat.sub_le_sub_right (Nat.pow_le_pow_right (by decide) h.2) 1

theorem Counter.ofConfig?_eq_some {c : CounterConfig} (h : ValidWidth c.bits) :
    ofConfig? c = some (ofConfig c) :=
  if_pos h

theorem Counter.add?_eq_some {c : Counter} (h : c.max ≤ 255) {d : Int} (hd : -1 ≤ d) (hd' : d ≤ 1) :
    c.add? d = some (c.add d) := by
  have hv := c.value_le_max
  unfold Counter.add?
  rw [addInt32?_eq_some (by omega) (by omega)]
  rfl

theorem Counter.update?_eq_some {c : Counter} (h : c.max ≤ 255) (o : Outcome) :
    c.update? o = some (c.update o) :=
  Counter.add?_eq_some h (by cases o <;> decide) (by cases o <;> decide)

theorem Weight.InRange.bounds {bits : Nat} (hb : ValidWidth bits) {w : Int}
    (h : Weight.InRange bits w) : -128 ≤ w ∧ w ≤ 128 := by
  have hpow : 2 ^ (bits - 1) ≤ 2 ^ 7 := Nat.pow_le_pow_right (by decide) (by have := hb.2; omega)
  obtain ⟨hl, hh⟩ := h
  simp only [Weight.lowest, Weight.highest] at hl hh
  omega

theorem Weight.add?_eq_some {bits : Nat} (hb : ValidWidth bits) {w d : Int}
    (h : Weight.InRange bits w) (hd : -1 ≤ d) (hd' : d ≤ 1) :
    Weight.add? bits w d = some (Weight.add bits w d) := by
  have hw := h.bounds hb
  unfold Weight.add? Weight.range?
  rw [if_pos (show 1 ≤ bits ∧ bits ≤ 8 from hb), addInt32?_eq_some (by omega) (by omega)]
  rfl

theorem Folded.zero?_eq_some {width span : Nat} (hw : 0 < width) (hw' : width < 64)
    (hs : 0 < span) : zero? width span = some (zero width span) :=
  if_pos ⟨hw, hw', hs⟩

theorem Folded.HasShape.update?_eq_some {f : Folded} {width span : Nat} (h : f.HasShape width span)
    (hw : 0 < width) {r : Register} (hr : span < r.length) : f.update? r = some (f.update r) :=
  if_pos ⟨h.width ▸ hw, h.span ▸ hr⟩

theorem Folded.HasShape.value?_eq_some {f : Folded} {width span : Nat} (h : f.HasShape width span)
    (hw : 0 < width) (hw' : width ≤ 64) : f.value? = some f.value :=
  if_pos ⟨h.width ▸ hw, h.width ▸ hw'⟩

/-! ## Tables -/

theorem log2_lt_of_fitsTable {size bytes : Nat} (h : fitsTable size bytes = true)
    (hs : isPowerOfTwo size = true) (hb : 0 < bytes) : size.log2 < 63 := by
  have hsize := two_pow_log2_of_isPowerOfTwo hs
  have hle : size ≤ size * bytes := Nat.le_mul_of_pos_right _ hb
  have hlt : size * bytes < 2 ^ 63 := of_decide_eq_true h
  exact (Nat.pow_lt_pow_iff_right (by decide)).1 (hsize ▸ Nat.lt_of_le_of_lt hle hlt)

namespace BaseTable

theorem ofConfig?_eq_some {c : BaseConfig} (h : c.Valid) (hf : c.fits = true) :
    ofConfig? c = some (ofConfig c) := by
  unfold ofConfig?
  rw [Counter.ofConfig?_eq_some h.counter, hf]
  rfl

variable {t : BaseTable}

theorem index?_eq_some (h : t.config.Valid) (hf : t.config.fits = true) (pc : UInt64) :
    t.index? pc = some (t.index pc) :=
  if_pos ⟨h.size, Nat.lt_trans (log2_lt_of_fitsTable hf h.size (by decide)) (by decide)⟩

theorem counter?_eq_some (h : t.counters.size = t.config.size) (hv : t.config.Valid) (i : Nat) :
    t.counter? i = some (t.counter i) := by
  rw [counter?, hasMask, hv.size, if_pos rfl, getElem?_counters h hv]

theorem WellFormed.max_counter_le (h : t.WellFormed) (hv : t.config.Valid) (i : Nat) :
    (t.counter i).max ≤ 255 := by
  rw [h.counters _ (Array.mem_of_getElem? (getElem?_counters h.size hv i))]
  exact hv.counter.two_pow_sub_one_le

end BaseTable

def Entry.Small (e : Entry) : Prop := e.counter.max ≤ 255 ∧ e.useful.max ≤ 255

namespace Entry

variable {e : Entry}

theorem Fits.small {c : TableConfig} (h : e.Fits c) (hc : c.Valid) : e.Small :=
  ⟨h.counter ▸ hc.counter.two_pow_sub_one_le, h.useful ▸ hc.useful.two_pow_sub_one_le⟩

theorem Small.train?_eq_some (h : e.Small) (predicted alternate o : Outcome) :
    e.train? predicted alternate o = some (e.train predicted alternate o) := by
  unfold train?
  rw [Counter.update?_eq_some h.1, Counter.update?_eq_some h.2]
  rfl

theorem Small.age?_eq_some (h : e.Small) : e.age? = some e.age := by
  unfold age?
  rw [Counter.add?_eq_some h.2 (by decide) (by decide)]
  rfl

end Entry

namespace TaggedTable

theorem ofConfig?_eq_some {c : TableConfig} (h : c.Valid) (hf : c.fits = true)
    (hl : 0 < c.historyLength) (usesPath : Bool) :
    ofConfig? c usesPath = some (ofConfig c usesPath) := by
  have htwo := h.two_le_tagBits
  have hsixteen := h.tagBits_le
  have hlog := log2_lt_of_fitsTable hf h.size (by decide)
  unfold ofConfig?
  rw [Folded.zero?_eq_some h.log2_size_pos (by omega) hl,
    Folded.zero?_eq_some (by omega) (by omega) hl, Folded.zero?_eq_some (by omega) (by omega) hl,
    Counter.ofConfig?_eq_some h.counter, Counter.ofConfig?_eq_some h.useful, hf]
  rfl

variable {t : TaggedTable}

theorem Shaped.entry?_eq_some (h : t.Shaped) (hv : t.config.Valid) (k : Nat) :
    t.entry? k = some (t.entry k) := by
  unfold entry?
  rw [hasMask, hv.size, if_pos rfl, h.getElem?_entries hv]

theorem WellFormed.small_entry (h : t.WellFormed) (hv : t.config.Valid) (k : Nat) :
    (t.entry k).Small :=
  (h.entries _ (Array.mem_of_getElem? (h.shaped.getElem?_entries hv k))).small hv

theorem WellFormed.follow?_eq_some (h : t.WellFormed) (hv : t.config.Valid) {r : Register}
    (hr : t.config.historyLength < r.length) : t.follow? r = some (t.follow r) := by
  have htwo := hv.two_le_tagBits
  unfold follow?
  rw [h.indexFold.update?_eq_some hv.log2_size_pos hr,
    h.tagFold.update?_eq_some (by omega) hr, h.shortTagFold.update?_eq_some (by omega) hr]
  rfl

theorem pathHash?_eq_some (h0 : 0 < t.indexBits) (h64 : t.indexBits < 64)
    (path : Option Register) : t.pathHash? path = some (t.pathHash path) := by
  cases path with
  | none => rfl
  | some r =>
    unfold pathHash? pathHash
    dsimp only
    by_cases hu : t.usesPath = true
    · rcases Nat.eq_zero_or_pos r.length with hr | hr
      · rw [if_neg (by simp [hr]), if_pos hu, Register.fold, Register.foldRange_eq _ _ _ h0, hr]
        rfl
      · rw [if_pos (by simp [hu]; omega), if_pos hu]
        unfold Register.fold? Register.fold
        rw [if_pos ⟨h0, h64, by omega, by omega⟩]
        rw [show r.length - 1 + 1 - 0 = r.length by omega]
    · simp [hu]

theorem Shaped.index?_eq_some (h : t.Shaped) (hs : isPowerOfTwo t.config.size = true)
    (h0 : 0 < t.indexBits) (h64 : t.indexBits < 64) (pc : UInt64) (path : Option Register) :
    t.index? pc path = some (t.index pc path) := by
  unfold index?
  rw [if_pos ⟨hs, h64⟩, h.indexFold.value?_eq_some h0 (Nat.le_of_lt h64),
    pathHash?_eq_some h0 h64]
  rfl

theorem Shaped.tag?_eq_some (h : t.Shaped) (htwo : 2 ≤ t.config.tagBits)
    (hsixteen : t.config.tagBits ≤ 16) (pc : UInt64) : t.tag? pc = some (t.tag pc) := by
  unfold tag?
  rw [if_pos (show 2 + t.config.tagBits < wordBits by unfold wordBits; omega),
    h.tagFold.value?_eq_some (by omega) (by omega),
    h.shortTagFold.value?_eq_some (by omega) (by omega)]
  rfl

end TaggedTable

/-! ## The overlay -/

namespace Perceptron

variable {c : OverlayConfig} {p : Perceptron}

/-- A local history is short, so that any bytes may be weights. -/
theorem InRange.output?_eq_some_of_short (h : p.InRange 8) {input : List Bool}
    (hi : input.length ≤ 32) :
    p.output? input = some (p.output input) ∧ (p.output input).natAbs ≤ 4224 := by
  have hbound : p.outputBound input 8 ≤ 33 * 2 ^ 7 := Nat.mul_le_mul (by omega) (Nat.le_refl _)
  have hout := h.natAbs_output_le input
  exact ⟨h.output?_eq_some input (by omega), by omega⟩

theorem trainWeights?_eq_some {bits : Nat} (hb : ValidWidth bits) (o : Outcome) {ws : List Int}
    (h : ∀ w ∈ ws, Weight.InRange bits w) (input : List Bool) :
    trainWeights? bits o input ws = some (trainWeights bits o input ws) := by
  induction ws generalizing input with
  | nil => cases input <;> rfl
  | cons w ws ih =>
    rw [List.forall_mem_cons] at h
    cases input with
    | nil => rfl
    | cons b input =>
      rw [trainWeights?, Weight.add?_eq_some hb h.1 (by split <;> decide) (by split <;> decide),
        ih h.2 input]
      rfl

theorem InRange.train?_eq_some {bits : Nat} (h : p.InRange bits) (hb : ValidWidth bits)
    (input : List Bool) (o : Outcome) : p.train? input o bits = some (p.train input o bits) := by
  unfold train?
  rw [Weight.add?_eq_some hb h.bias (by cases o <;> decide) (by cases o <;> decide),
    trainWeights?_eq_some hb o h.weights]
  rfl

end Perceptron

theorem Vote.isConfident?_eq_some {v : Vote} (h : v.output.natAbs ≤ 4224) (threshold : Int) :
    v.isConfident? threshold = some (v.isConfident threshold) := by
  unfold isConfident? fitsInt32
  refine if_pos ?_
  simp only [Bool.and_eq_true, decide_eq_true_eq]
  omega

namespace Overlay

theorem ofConfig?_eq_some {c : OverlayConfig} (h : c.fits = true) :
    ofConfig? c = some (ofConfig c) :=
  if_pos h

variable {o : Overlay}

theorem inputOf?_eq_some (hv : o.config.Valid) (h : BitVec 32) :
    o.inputOf? h = some (o.inputOf h) ∧ (o.inputOf h).length ≤ 32 := by
  have hle : o.config.inputs ≤ 32 := Nat.le_trans (Nat.min_le_right ..) hv.localLength_le
  exact ⟨if_pos hle, by simpa [inputOf] using hle⟩

theorem Shaped.vote?_eq_some (h : o.Shaped) (hv : o.config.Valid) (pc : UInt64) :
    o.vote? pc = some (o.vote pc) ∧ (o.vote pc).output.natAbs ≤ 4224 := by
  have hp : o.perceptronIndex pc < o.perceptrons.size := h.size ▸ Nat.mod_lt _ hv.perceptrons
  have hr : o.historyIndex pc < o.histories.size := h.histories ▸ Nat.mod_lt _ hv.localRegisters
  have hhist := Array.getElem?_eq_getElem hr
  have hperc := Array.getElem?_eq_getElem hp
  obtain ⟨hin, hlen⟩ := inputOf?_eq_some hv o.histories[o.historyIndex pc]
  obtain ⟨hout, hsmall⟩ :=
    (h.perceptrons _ (Array.getElem_mem hp)).output?_eq_some_of_short hlen
  unfold vote? vote history perceptron
  rw [if_pos ⟨hv.perceptrons, hv.localRegisters⟩, hhist, hperc]
  simp only [Option.getD_some, Option.bind_eq_bind, Option.bind_some, hin, hout]
  exact ⟨trivial, hsmall⟩

theorem WellFormed.trained?_isSome (h : o.WellFormed) (hv : o.config.Valid) {v : Vote}
    (hp : v.perceptronIndex < o.config.perceptrons)
    (hr : v.historyIndex < o.config.localRegisters) (outcome : Outcome) :
    ∃ p, o.trained? v outcome = some p := by
  rw [← h.size] at hp
  rw [← h.histories] at hr
  unfold trained?
  rw [Array.getElem?_eq_getElem hp, Array.getElem?_eq_getElem hr, (inputOf?_eq_some hv _).1]
  exact ⟨_, (h.perceptrons _ (Array.getElem_mem hp)).inRange.train?_eq_some hv.weight _ outcome⟩

end Overlay

end BranchPrediction
