import BranchPrediction.Bounds
import BranchPrediction.Config.Basic

/-!
# The room that a configuration takes

Whether there can be tables and histories as large as a configuration says. A counter takes two
bytes, a tagged entry eight, a weight one, a perceptron 32 besides its weights, and a local
history four.
-/

namespace BranchPrediction

def BaseConfig.fits (c : BaseConfig) : Bool :=
  fitsTable c.size 2

def TableConfig.fits (c : TableConfig) : Bool :=
  fitsTable c.size 8

def OverlayConfig.fits (c : OverlayConfig) : Bool :=
  fitsTable c.weights 1 && fitsTable c.perceptrons 32 && fitsTable c.localRegisters 4

def PathConfig.fits (c : PathConfig) : Bool :=
  fitsHistory c.length

/-- Whether all parts fit, each on its own. -/
def Config.fits (c : Config) : Bool :=
  c.base.fits && c.tables.all TableConfig.fits && c.overlay.all OverlayConfig.fits
    && fitsHistory c.globalLength && c.path.all PathConfig.fits

end BranchPrediction
