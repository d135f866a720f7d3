import BranchPrediction.Config.Basic
import BranchPrediction.Config.Error

/-!
# Validation

Which configurations describe a predictor. The parts are looked at in a fixed order, and the
first part at fault gives the error.
-/

namespace BranchPrediction

/-- Whether `n` is `2 ^ k` for some `k`. -/
def isPowerOfTwo (n : Nat) : Bool :=
  n == 2 ^ n.log2

theorem isPowerOfTwo_iff {n : Nat} : isPowerOfTwo n = true ↔ ∃ k, n = 2 ^ k := by
  constructor
  · intro h
    exact ⟨n.log2, by simpa [isPowerOfTwo] using h⟩
  · rintro ⟨k, rfl⟩
    simp [isPowerOfTwo, Nat.log2_two_pow]

/-- Counters have between one and eight bits. -/
def validateWidth (bits : Nat) : Except ConfigError Unit :=
  if 1 ≤ bits ∧ bits ≤ 8 then .ok () else .error (.counterWidth bits)

def BaseConfig.validate (c : BaseConfig) : Except ConfigError Unit :=
  if !isPowerOfTwo c.size then .error (.notPowerOfTwo .base c.size)
  else validateWidth c.counter.bits

def TableConfig.validate (c : TableConfig) : Except ConfigError Unit :=
  if !isPowerOfTwo c.size || c.size < 2 then .error (.notPowerOfTwo .tagged c.size)
  else if c.tagBits < 2 ∨ 16 < c.tagBits then .error (.tagWidth c.tagBits)
  else do
    validateWidth c.counter.bits
    validateWidth c.usefulBits

def OverlayConfig.validate (c : OverlayConfig) : Except ConfigError Unit :=
  if c.perceptrons = 0 ∨ c.localRegisters = 0 then .error .emptyOverlay
  else do
    validateWidth c.weightBits
    if c.localLength < 1 ∨ 32 < c.localLength then .error (.localLength c.localLength)
    else if c.threshold < 0 then .error (.negativeThreshold c.threshold)
    else .ok ()

/-- A branch shifts at least one bit into the path history, no more than the history or a word
holds, and drops fewer address bits than there are. -/
def PathConfig.validate (c : PathConfig) : Except ConfigError Unit :=
  if c.length = 0 ∨ c.bitsPerBranch = 0 ∨ c.length < c.bitsPerBranch ∨ 64 < c.bitsPerBranch
      ∨ 64 ≤ c.alignBits then
    .error (.pathShape c.length c.bitsPerBranch)
  else .ok ()

/-- Whether each number is above the one before it. -/
def increases : List Nat → Bool
  | a :: b :: rest => a < b && increases (b :: rest)
  | _ => true

/-- Validates a part that may be absent. -/
def validateOption {α : Type} (validate : α → Except ConfigError Unit) :
    Option α → Except ConfigError Unit
  | none => .ok ()
  | some a => validate a

namespace Config

/-- There are tagged tables, and their history lengths are positive and increase. -/
def validateTables (c : Config) : Except ConfigError Unit :=
  if c.tables = [] then .error .noTables
  else do
    c.tables.forM TableConfig.validate
    if !increases (0 :: c.historyLengths) then .error (.historyLengths c.historyLengths)
    else .ok ()

def validate (c : Config) : Except ConfigError Unit := do
  c.base.validate
  c.validateTables
  validateOption OverlayConfig.validate c.overlay
  validateOption PathConfig.validate c.path
  if c.usefulResetLog2 = 0 ∨ 63 < c.usefulResetLog2 then .error (.resetPeriod c.usefulResetLog2)
  else .ok ()

end Config

end BranchPrediction
