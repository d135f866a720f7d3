import BranchPrediction.Config.Basic
import BranchPrediction.Config.Geometric

/-!
# Preset configurations
-/

namespace BranchPrediction

namespace Config

/-- The base table and tagged tables of the given history lengths, otherwise as by default. -/
def ofHistoryLengths (lengths : List Nat) : Config :=
  lengths.foldl (fun c n => c.add { historyLength := n }) (ofBase {})

/-- Four tagged tables over 4, 8, 16 and 32 outcomes. -/
def tage : Config :=
  ofHistoryLengths [4, 8, 16, 32]

/-- Four tagged tables over geometric history lengths, with path history and an overlay. -/
def neuralTage : Config :=
  { ofHistoryLengths (geometricLengths 2 250 4) with overlay := some {}, path := some {} }

end Config

def Variant.preset : Variant → Config
  | tage => Config.tage
  | neuralTage => Config.neuralTage

end BranchPrediction
