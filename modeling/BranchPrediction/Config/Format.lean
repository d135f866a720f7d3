import BranchPrediction.Config.Preset
import BranchPrediction.Json.Codec

/-!
# Configurations as JSON

The field names and ranges of the parts of a configuration. A part that is left out takes its
default value; only the width of a counter has to be given.
-/

namespace BranchPrediction

open Json (Codec Field Layout Reading)

/-- Sizes, lengths and widths are words of 64 bits. -/
def sizeCodec : Codec Nat := Codec.nat 64

def CounterConfig.layout : Layout CounterConfig where
  blank := ⟨0, none⟩
  required := ["bits"]
  fields := [
    .of "bits" sizeCodec (·.bits) fun c x => { c with bits := x },
    .of "init" (Codec.nat 8).option (·.initial) fun c x => { c with initial := x }]

def CounterConfig.codec : Codec CounterConfig := layout.codec

def BaseConfig.layout : Layout BaseConfig where
  blank := {}
  fields := [
    .of "ctr" CounterConfig.codec (·.counter) fun c x => { c with counter := x },
    .of "size" sizeCodec (·.size) fun c x => { c with size := x }]

def BaseConfig.codec : Codec BaseConfig := layout.codec

def TableConfig.layout : Layout TableConfig where
  blank := {}
  fields := [
    .of "size" sizeCodec (·.size) fun c x => { c with size := x },
    .of "history_len" sizeCodec (·.historyLength) fun c x => { c with historyLength := x },
    .of "tag_bits" sizeCodec (·.tagBits) fun c x => { c with tagBits := x },
    .of "useful_bits" sizeCodec (·.usefulBits) fun c x => { c with usefulBits := x },
    .of "ctr" CounterConfig.codec (·.counter) fun c x => { c with counter := x }]

def TableConfig.codec : Codec TableConfig := layout.codec

def OverlayConfig.layout : Layout OverlayConfig where
  blank := {}
  fields := [
    .of "num_neurons" sizeCodec (·.perceptrons) fun c x => { c with perceptrons := x },
    .of "num_weights" sizeCodec (·.weights) fun c x => { c with weights := x },
    .of "weight_bits" sizeCodec (·.weightBits) fun c x => { c with weightBits := x },
    .of "local_history_size" sizeCodec (·.localRegisters)
      fun c x => { c with localRegisters := x },
    .of "local_history_len" sizeCodec (·.localLength) fun c x => { c with localLength := x },
    .of "threshold" Codec.int32 (·.threshold) fun c x => { c with threshold := x }]

def OverlayConfig.codec : Codec OverlayConfig := layout.codec

def PathConfig.layout : Layout PathConfig where
  blank := {}
  fields := [
    .of "len" sizeCodec (·.length) fun c x => { c with length := x },
    .of "bits_per_branch" sizeCodec (·.bitsPerBranch) fun c x => { c with bitsPerBranch := x },
    .of "align_bits" sizeCodec (·.alignBits) fun c x => { c with alignBits := x }]

def PathConfig.codec : Codec PathConfig := layout.codec

/-- A configuration starts as the preset without an overlay. -/
def Config.layout : Layout Config where
  blank := Config.tage
  fields := [
    .of "base" BaseConfig.codec (·.base) fun c x => { c with base := x },
    .of "comp" TableConfig.codec.list (·.tables) fun c x => { c with tables := x },
    .of "neural" OverlayConfig.codec.option (·.overlay) fun c x => { c with overlay := x },
    .of "path" PathConfig.codec.option (·.path) fun c x => { c with path := x },
    .of "seed" Codec.word (·.seed) fun c x => { c with seed := x },
    .of "useful_reset_log2" (Codec.nat 32) (·.usefulResetLog2)
      fun c x => { c with usefulResetLog2 := x }]

def Config.codec : Codec Config := layout.codec

namespace Variant

/-- The name in JSON texts. -/
def formatName : Variant → String
  | tage => "Tage"
  | neuralTage => "NeuralTage"

def ofFormatName? (name : List Char) : Option Variant :=
  [tage, neuralTage].find? fun v => v.formatName.toList == name

def codec : Codec Variant := Codec.named formatName ofFormatName?

end Variant

/-- Reads a configuration; fields that are left out take their default values. -/
def Config.ofJson (text : String) : Reading Config :=
  Config.codec.ofText text

def Config.toJson (c : Config) : String :=
  Config.codec.toText c

end BranchPrediction
