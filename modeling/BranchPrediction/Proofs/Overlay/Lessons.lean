import BranchPrediction.Overlay.Basic

/-!
# Lessons

A lesson is an address and the outcome of the branch there. An overlay learns from a lesson by
voting on the address and being trained with the outcome at once. Each local register then holds
the outcomes of the lessons at its own addresses, newest first (`HoldsLog`): one lesson keeps this
(`HoldsLog.learn`), and so does a list of lessons (`HoldsLog.learnAll`).
-/

namespace BranchPrediction

namespace OverlayConfig

def registerOf (c : OverlayConfig) (pc : UInt64) : Nat :=
  (pc.toNat ^^^ (pc.toNat >>> 11)) % c.localRegisters

/-- Outcome `k` of the lessons in a log that have their addresses in register `s`, and `false` when
there were fewer. -/
def localBit (c : OverlayConfig) (log : List (UInt64 × Outcome)) (s k : Nat) : Bool :=
  ((log.filter fun e => c.registerOf e.1 == s)[k]?).any fun e => e.2.toBool

section
variable (c : OverlayConfig) {e : UInt64 × Outcome} {s : Nat} (log : List (UInt64 × Outcome))

theorem localBit_cons_self_zero (h : c.registerOf e.1 = s) :
    c.localBit (e :: log) s 0 = e.2.toBool := by
  simp [localBit, h]

theorem localBit_cons_self_succ (h : c.registerOf e.1 = s) (k : Nat) :
    c.localBit (e :: log) s (k + 1) = c.localBit log s k := by
  simp [localBit, h]

theorem localBit_cons_other (h : c.registerOf e.1 ≠ s) (k : Nat) :
    c.localBit (e :: log) s k = c.localBit log s k := by
  simp [localBit, h]

end

end OverlayConfig

namespace Overlay

/-- Votes on the address of a lesson, and trains with its outcome. -/
def learn (o : Overlay) (e : UInt64 × Outcome) : Overlay :=
  o.train (o.vote e.1) e.2

def learnAll (o : Overlay) (es : List (UInt64 × Outcome)) : Overlay :=
  es.foldl learn o

/-- The local registers hold the outcomes of a log, newest first. -/
structure HoldsLog (o : Overlay) (log : List (UInt64 × Outcome)) : Prop where
  size : o.histories.size = o.config.localRegisters
  bits : ∀ s h, o.histories[s]? = some h →
    ∀ k < 32, h.getLsbD k = o.config.localBit log s k

@[simp] theorem config_learn (o : Overlay) (e : UInt64 × Outcome) :
    (o.learn e).config = o.config := rfl

@[simp] theorem config_learnAll (o : Overlay) (es : List (UInt64 × Outcome)) :
    (o.learnAll es).config = o.config := by
  induction es generalizing o with
  | nil => rfl
  | cons e es ih => exact ih (o.learn e)

theorem learnAll_append (o : Overlay) (es fs : List (UInt64 × Outcome)) :
    o.learnAll (es ++ fs) = (o.learnAll es).learnAll fs :=
  List.foldl_append

theorem getElem?_histories_learn (o : Overlay) (e : UInt64 × Outcome) (s : Nat) :
    (o.learn e).histories[s]? =
      if o.config.registerOf e.1 = s then o.histories[s]?.map (·.shiftConcat e.2.toBool)
      else o.histories[s]? :=
  Array.getElem?_modify

theorem holdsLog_ofConfig (c : OverlayConfig) : (ofConfig c).HoldsLog [] where
  size := by simp [ofConfig]
  bits s h hs k _ := by
    obtain rfl := (Array.mem_replicate.1 (Array.mem_of_getElem? hs)).2
    simp [OverlayConfig.localBit]

variable {o : Overlay} {log : List (UInt64 × Outcome)}

theorem HoldsLog.learn (h : o.HoldsLog log) (e : UInt64 × Outcome) :
    (o.learn e).HoldsLog (e :: log) where
  size := by simpa [Overlay.learn, train] using h.size
  bits s g hs k hk := by
    rw [getElem?_histories_learn] at hs
    rw [config_learn]
    by_cases he : o.config.registerOf e.1 = s
    · rw [if_pos he, Option.map_eq_some_iff] at hs
      obtain ⟨g, hg, rfl⟩ := hs
      rw [BitVec.getLsbD_shiftConcat, decide_eq_true hk, Bool.true_and]
      cases k with
      | zero => exact (o.config.localBit_cons_self_zero log he).symm
      | succ k =>
        rw [o.config.localBit_cons_self_succ log he]
        exact h.bits s g hg k (by omega)
    · rw [if_neg he] at hs
      rw [o.config.localBit_cons_other log he]
      exact h.bits s g hs k hk

theorem HoldsLog.learnAll (h : o.HoldsLog log) (es : List (UInt64 × Outcome)) :
    (o.learnAll es).HoldsLog (es.reverse ++ log) := by
  induction es generalizing o log with
  | nil => exact h
  | cons e es ih =>
    rw [List.reverse_cons, List.append_assoc]
    exact ih (h.learn e)

end Overlay

end BranchPrediction
