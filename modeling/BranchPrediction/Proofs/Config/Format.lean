import BranchPrediction.Config.Format
import BranchPrediction.Proofs.Json.Records

/-!
# Configurations read back

The numbers in a configuration have the ranges of machine integers (`InRange`). For each part of a
configuration, `picked S` is the default with the fields in `S` taken from a given value, and
`picks` says that reading its members in any order leads there. Main statement:
`formats_readBack`.
-/

namespace BranchPrediction

open Json (Codec Field Layout IsPlain)

theorem readsBack_size {n : Nat} (h : n < 2 ^ 64) : sizeCodec.ReadsBack n :=
  Codec.readsBack_nat (Nat.le_refl 64) h

namespace CounterConfig

/-- The numbers have the ranges of the words that hold them. -/
structure InRange (c : CounterConfig) : Prop where
  bits : c.bits < 2 ^ 64
  initial : ∀ x ∈ c.initial, x < 2 ^ 8

def picked (c : CounterConfig) (S : Finset String) : CounterConfig where
  bits := if "bits" ∈ S then c.bits else 0
  initial := if "init" ∈ S then c.initial else none

theorem picks {c : CounterConfig} (h : c.InRange) : layout.Picks c c.picked where
  wellNamed := by constructor <;> decide
  blank := by simp [picked, layout]
  all := by simp [picked, layout, Field.of]
  field := by
    have hbits := readsBack_size h.bits
    have hinitial : (Codec.nat 8).option.ReadsBack c.initial :=
      Codec.readsBack_option (fun x hx => Codec.readsBack_nat (by decide) (h.initial x hx))
        fun x _ => Codec.head_write_nat 8 x
    simp only [layout, List.forall_mem_cons]
    exact ⟨Field.picked_of hbits fun S => by simp [picked],
      Field.picked_of hinitial fun S => by simp [picked], List.forall_mem_nil _⟩

end CounterConfig

namespace BaseConfig

structure InRange (c : BaseConfig) : Prop where
  counter : c.counter.InRange
  size : c.size < 2 ^ 64

def picked (c : BaseConfig) (S : Finset String) : BaseConfig where
  counter := if "ctr" ∈ S then c.counter else ({} : BaseConfig).counter
  size := if "size" ∈ S then c.size else ({} : BaseConfig).size

theorem picks {c : BaseConfig} (h : c.InRange) : layout.Picks c c.picked where
  wellNamed := by constructor <;> decide
  blank := by simp [picked, layout]
  all := by simp [picked, layout, Field.of]
  field := by
    have hcounter : CounterConfig.codec.ReadsBack c.counter :=
      (CounterConfig.picks h.counter).readsBack
    simp only [layout, List.forall_mem_cons]
    exact ⟨Field.picked_of hcounter fun S => by simp [picked],
      Field.picked_of (readsBack_size h.size) fun S => by simp [picked], List.forall_mem_nil _⟩

end BaseConfig

namespace TableConfig

structure InRange (c : TableConfig) : Prop where
  size : c.size < 2 ^ 64
  historyLength : c.historyLength < 2 ^ 64
  tagBits : c.tagBits < 2 ^ 64
  usefulBits : c.usefulBits < 2 ^ 64
  counter : c.counter.InRange

def picked (c : TableConfig) (S : Finset String) : TableConfig where
  size := if "size" ∈ S then c.size else ({} : TableConfig).size
  historyLength := if "history_len" ∈ S then c.historyLength else ({} : TableConfig).historyLength
  tagBits := if "tag_bits" ∈ S then c.tagBits else ({} : TableConfig).tagBits
  usefulBits := if "useful_bits" ∈ S then c.usefulBits else ({} : TableConfig).usefulBits
  counter := if "ctr" ∈ S then c.counter else ({} : TableConfig).counter

theorem picks {c : TableConfig} (h : c.InRange) : layout.Picks c c.picked where
  wellNamed := by constructor <;> decide
  blank := by simp [picked, layout]
  all := by simp [picked, layout, Field.of]
  field := by
    have hcounter : CounterConfig.codec.ReadsBack c.counter :=
      (CounterConfig.picks h.counter).readsBack
    simp only [layout, List.forall_mem_cons]
    exact ⟨Field.picked_of (readsBack_size h.size) fun S => by simp [picked],
      Field.picked_of (readsBack_size h.historyLength) fun S => by simp [picked],
      Field.picked_of (readsBack_size h.tagBits) fun S => by simp [picked],
      Field.picked_of (readsBack_size h.usefulBits) fun S => by simp [picked],
      Field.picked_of hcounter fun S => by simp [picked], List.forall_mem_nil _⟩

end TableConfig

namespace OverlayConfig

structure InRange (c : OverlayConfig) : Prop where
  perceptrons : c.perceptrons < 2 ^ 64
  weights : c.weights < 2 ^ 64
  weightBits : c.weightBits < 2 ^ 64
  localRegisters : c.localRegisters < 2 ^ 64
  localLength : c.localLength < 2 ^ 64
  threshold : -2 ^ 31 ≤ c.threshold ∧ c.threshold < 2 ^ 31

def picked (c : OverlayConfig) (S : Finset String) : OverlayConfig where
  perceptrons := if "num_neurons" ∈ S then c.perceptrons else ({} : OverlayConfig).perceptrons
  weights := if "num_weights" ∈ S then c.weights else ({} : OverlayConfig).weights
  weightBits := if "weight_bits" ∈ S then c.weightBits else ({} : OverlayConfig).weightBits
  localRegisters :=
    if "local_history_size" ∈ S then c.localRegisters else ({} : OverlayConfig).localRegisters
  localLength :=
    if "local_history_len" ∈ S then c.localLength else ({} : OverlayConfig).localLength
  threshold := if "threshold" ∈ S then c.threshold else ({} : OverlayConfig).threshold

theorem picks {c : OverlayConfig} (h : c.InRange) : layout.Picks c c.picked where
  wellNamed := by constructor <;> decide
  blank := by simp [picked, layout]
  all := by simp [picked, layout, Field.of]
  field := by
    have hthreshold := Codec.readsBack_int32 h.threshold.1 h.threshold.2
    simp only [layout, List.forall_mem_cons]
    exact ⟨Field.picked_of (readsBack_size h.perceptrons) fun S => by simp [picked],
      Field.picked_of (readsBack_size h.weights) fun S => by simp [picked],
      Field.picked_of (readsBack_size h.weightBits) fun S => by simp [picked],
      Field.picked_of (readsBack_size h.localRegisters) fun S => by simp [picked],
      Field.picked_of (readsBack_size h.localLength) fun S => by simp [picked],
      Field.picked_of hthreshold fun S => by simp [picked], List.forall_mem_nil _⟩

end OverlayConfig

namespace PathConfig

structure InRange (c : PathConfig) : Prop where
  length : c.length < 2 ^ 64
  bitsPerBranch : c.bitsPerBranch < 2 ^ 64
  alignBits : c.alignBits < 2 ^ 64

def picked (c : PathConfig) (S : Finset String) : PathConfig where
  length := if "len" ∈ S then c.length else ({} : PathConfig).length
  bitsPerBranch :=
    if "bits_per_branch" ∈ S then c.bitsPerBranch else ({} : PathConfig).bitsPerBranch
  alignBits := if "align_bits" ∈ S then c.alignBits else ({} : PathConfig).alignBits

theorem picks {c : PathConfig} (h : c.InRange) : layout.Picks c c.picked where
  wellNamed := by constructor <;> decide
  blank := by simp [picked, layout]
  all := by simp [picked, layout, Field.of]
  field := by
    simp only [layout, List.forall_mem_cons]
    exact ⟨Field.picked_of (readsBack_size h.length) fun S => by simp [picked],
      Field.picked_of (readsBack_size h.bitsPerBranch) fun S => by simp [picked],
      Field.picked_of (readsBack_size h.alignBits) fun S => by simp [picked],
      List.forall_mem_nil _⟩

end PathConfig

/-! ## Configurations -/

namespace Config

structure InRange (c : Config) : Prop where
  base : c.base.InRange
  tables : ∀ t ∈ c.tables, t.InRange
  overlay : ∀ o ∈ c.overlay, o.InRange
  path : ∀ p ∈ c.path, p.InRange
  usefulResetLog2 : c.usefulResetLog2 < 2 ^ 32

/-- The preset without an overlay, with the fields in `S` taken from `c`. -/
def picked (c : Config) (S : Finset String) : Config where
  base := if "base" ∈ S then c.base else tage.base
  tables := if "comp" ∈ S then c.tables else tage.tables
  overlay := if "neural" ∈ S then c.overlay else tage.overlay
  path := if "path" ∈ S then c.path else tage.path
  seed := if "seed" ∈ S then c.seed else tage.seed
  usefulResetLog2 :=
    if "useful_reset_log2" ∈ S then c.usefulResetLog2 else tage.usefulResetLog2

theorem picks {c : Config} (h : c.InRange) : layout.Picks c c.picked where
  wellNamed := by constructor <;> decide
  blank := by simp [picked, layout]
  all := by simp [picked, layout, Field.of]
  field := by
    have hbase : BaseConfig.codec.ReadsBack c.base := (BaseConfig.picks h.base).readsBack
    have htables : TableConfig.codec.list.ReadsBack c.tables :=
      Codec.readsBack_list fun t ht => (TableConfig.picks (h.tables t ht)).readsBack
    have hoverlay : OverlayConfig.codec.option.ReadsBack c.overlay :=
      Layout.readsBack_option fun o ho => (OverlayConfig.picks (h.overlay o ho)).readsBack
    have hpath : PathConfig.codec.option.ReadsBack c.path :=
      Layout.readsBack_option fun p hp => (PathConfig.picks (h.path p hp)).readsBack
    have hreset := Codec.readsBack_nat (by decide) h.usefulResetLog2
    simp only [layout, List.forall_mem_cons]
    exact ⟨Field.picked_of hbase fun S => by simp [picked],
      Field.picked_of htables fun S => by simp [picked],
      Field.picked_of hoverlay fun S => by simp [picked],
      Field.picked_of hpath fun S => by simp [picked],
      Field.picked_of (Codec.readsBack_word c.seed) fun S => by simp [picked],
      Field.picked_of hreset fun S => by simp [picked], List.forall_mem_nil _⟩

end Config

theorem Variant.readsBack (v : Variant) : codec.ReadsBack v := by
  refine Codec.readsBack_named ?_ ?_
  · cases v <;> decide
  · cases v <;> decide

/-- Every configuration whose numbers are in range reads back from the text that is written of it,
whether or not it describes a predictor. So does every part of one, and the kind of predictor. -/
theorem formats_readBack :
    (∀ c : Config, c.InRange → Config.ofJson c.toJson = .ok c) ∧
    (∀ c : CounterConfig, c.InRange →
      CounterConfig.codec.ofText (CounterConfig.codec.toText c) = .ok c) ∧
    (∀ c : BaseConfig, c.InRange → BaseConfig.codec.ofText (BaseConfig.codec.toText c) = .ok c) ∧
    (∀ c : TableConfig, c.InRange →
      TableConfig.codec.ofText (TableConfig.codec.toText c) = .ok c) ∧
    (∀ c : OverlayConfig, c.InRange →
      OverlayConfig.codec.ofText (OverlayConfig.codec.toText c) = .ok c) ∧
    (∀ c : PathConfig, c.InRange → PathConfig.codec.ofText (PathConfig.codec.toText c) = .ok c) ∧
    ∀ v : Variant, Variant.codec.ofText (Variant.codec.toText v) = .ok v :=
  ⟨fun _ h => (Config.picks h).readsBack.ofText_toText,
    fun _ h => (CounterConfig.picks h).readsBack.ofText_toText,
    fun _ h => (BaseConfig.picks h).readsBack.ofText_toText,
    fun _ h => (TableConfig.picks h).readsBack.ofText_toText,
    fun _ h => (OverlayConfig.picks h).readsBack.ofText_toText,
    fun _ h => (PathConfig.picks h).readsBack.ofText_toText,
    fun v => v.readsBack.ofText_toText⟩

/-- No predictor can be built from this configuration. -/
theorem formats_readBack_invalid :
    let c : Config :=
      { base := ⟨⟨2 ^ 64 - 1, some 255⟩, 3⟩
        tables := [{ size := 0 }, {}]
        overlay := some { threshold := -2 ^ 31 }
        path := some { length := 0 }
        seed := .ofNat (2 ^ 64 - 1)
        usefulResetLog2 := 2 ^ 32 - 1 }
    c.InRange ∧ Config.ofJson c.toJson = .ok c ∧
      CounterConfig.codec.ofText (CounterConfig.codec.toText c.base.counter)
        = .ok c.base.counter := by
  intro c
  have hcounter : c.base.counter.InRange := ⟨by decide, by decide⟩
  have hrange : c.InRange := by
    refine ⟨⟨hcounter, by decide⟩, ?_, ?_, ?_, by decide⟩
    · intro t ht
      have ht : t = { size := 0 } ∨ t = {} := by simpa [c] using ht
      rcases ht with rfl | rfl <;>
        exact ⟨by decide, by decide, by decide, by decide, by decide, by decide⟩
    · rintro o ⟨⟩
      exact ⟨by decide, by decide, by decide, by decide, by decide, by decide⟩
    · rintro p ⟨⟩
      exact ⟨by decide, by decide, by decide⟩
  exact ⟨hrange, formats_readBack.1 c hrange, formats_readBack.2.1 _ hcounter⟩

end BranchPrediction
