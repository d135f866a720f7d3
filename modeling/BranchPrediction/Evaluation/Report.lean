import BranchPrediction.Decimal.Fixed
import BranchPrediction.Evaluation.Simulation

/-!
# Reports

What an evaluation prints: the configuration of the predictor before the simulation, and the
accuracy, the tallies of the tables and the worst branches after it.
-/

namespace BranchPrediction.Report

open Decimal (placePoint roundHalfEven renderFixed renderAligned renderHex)

/-- Branches seen less often are not listed among the worst. -/
def minOccurrences : Nat := 100

/-- Branches predicted better than this are not listed among the worst. -/
def maxRate : Float := 0.55

/-- How many outcomes are shown of a branch. -/
def patternLength : Nat := 32

def loadedLine (path : String) (records : Nat) : String :=
  "[*] Loaded " ++ toString records ++ " records from " ++ path

def tableLine (i : Nat) (t : TableConfig) : String :=
  "        " ++ toString t.size ++ " entries (tagged component " ++ toString i ++ ", "
    ++ toString t.historyLength ++ " history bits)"

def overlayLine (o : OverlayConfig) : String :=
  "        " ++ toString o.perceptrons ++ " perceptrons x " ++ toString o.weights
    ++ " weights, threshold " ++ toString o.threshold

def configLines (p : Predictor) : List String :=
  let c := p.config
  let kib := Float.ofNat c.storageBits / 1024.0 / 8.0
  ["[*] " ++ c.variant.displayName ++ " configuration:",
    "      Entries (in total): " ++ toString c.totalEntries,
    "        " ++ toString c.base.size ++ " entries (base component)"]
  ++ c.tables.mapIdx tableLine
  ++ (c.overlay.map overlayLine).toList
  ++ ["      Storage bits: " ++ toString c.storageBits ++ "b, " ++ renderFixed 2 kib ++ "KiB",
    "      Global History Register (GHR) length: " ++ toString p.global.length ++ " bits"]

/-- A span of time in the largest unit that it reaches, with three decimal places. -/
def durationText (nanoseconds : Nat) : String :=
  let (unit, name) :=
    if 10 ^ 9 ≤ nanoseconds then (10 ^ 9, "s")
    else if 10 ^ 6 ≤ nanoseconds then (10 ^ 6, "ms")
    else if 10 ^ 3 ≤ nanoseconds then (10 ^ 3, "µs")
    else (1, "ns")
  String.ofList (placePoint 3 (roundHalfEven (1000 * nanoseconds) unit)) ++ name

def elapsedLine (nanoseconds : Nat) : String :=
  "[*] ... simulated in " ++ durationText nanoseconds

def globalLines (a : Accuracy) : List String :=
  ["[*] Global statistics:",
    "      Unique branches: " ++ toString a.uniqueBranches,
    "      Global hit rate: " ++ toString a.hits ++ "/" ++ toString a.total ++ " ("
      ++ renderFixed 2 (a.hitRate * 100.0) ++ "% correct) (" ++ toString a.misses ++ " misses)",
    "      Average MPKB:    " ++ renderFixed 2 a.missesPerWindow ++ " miss/kbrn"]

def missesAndHits (misses hits : Nat) : String :=
  "        " ++ toString misses ++ " misses, " ++ toString hits ++ " hits"

def taggedLines (tally : Tally) (i : Nat) (t : TaggedTable) : List String :=
  ["      Component[" ++ toString i ++ "] (" ++ toString t.config.historyLength
      ++ " history bits):",
    missesAndHits (tally.taggedMisses.getD i 0) (tally.taggedHits.getD i 0),
    "        " ++ renderFixed 2 t.utilization ++ "% utilization"]

def tableLines (p : Predictor) : List String :=
  let tally := p.tally
  ["[*] Per-component statistics:", "      Base component:",
    missesAndHits tally.baseMisses tally.baseHits]
  ++ (p.tables.mapIdx (taggedLines tally)).flatten
  ++ ["      " ++ toString tally.allocations ++ " allocations ("
      ++ toString tally.failedAllocations ++ " failed), " ++ toString tally.resets
      ++ " 'useful' resets"]
  ++ if p.overlay.isSome then
      ["      " ++ toString tally.overrides ++ " neural overrides ("
        ++ toString tally.overrideHits ++ " correct)"]
    else []

def branchLine (pc : UInt64) (b : BranchTally) : String :=
  "  " ++ renderHex 16 pc.toNat ++ " " ++ renderAligned 8 b.hits ++ "/"
    ++ renderAligned 8 b.occurrences ++ " " ++ renderFixed 4 b.hitRate ++ " "
    ++ b.pattern patternLength

def worstLines (a : Accuracy) (count : Nat) : List String :=
  "[*] Low hit-rate branches:"
    :: (a.worst count minOccurrences maxRate).map fun e => branchLine e.1 e.2

/-- The lines after a simulation, with `worst` badly predicted branches at most. -/
def resultLines (s : Simulation) (worst : Nat) : List String :=
  [""] ++ globalLines s.accuracy ++ [""] ++ tableLines s.predictor ++ [""]
    ++ worstLines s.accuracy worst

end BranchPrediction.Report
