import BranchPrediction.Proofs.Evaluation.Branches
import BranchPrediction.Proofs.Predictor.Conservation

/-!
# Two ways to count

A simulation counts the right predictions that it sees, and its predictor keeps a tally of its own:
which table was right, what was overruled, what was allocated. `Accounts` says how the two stand to
each other while no prediction is left open; a visited branch keeps it (`Accounts.visit`), and so
does a whole simulation (`accounts_run`).
-/

namespace BranchPrediction

theorem Accuracy.hits_update (a : Accuracy) (r : Record) (predicted : Outcome) :
    (a.update r predicted).hits = a.hits + (predicted == r.outcome).toNat := by
  show a.hits + (if predicted == r.outcome then 1 else 0) = _
  cases predicted == r.outcome <;> rfl

theorem length_filterMap_branch? (records : List Record) :
    (records.filterMap Record.branch?).length
      = records.countP fun r => r.kind? == some .directBranch := by
  rw [List.length_filterMap_eq_countP]
  exact List.countP_congr fun r _ => by rw [r.isSome_branch?]

namespace Simulation

/-- The counts of a simulation and the tally of its predictor agree, and every prediction so far is
resolved. -/
structure Accounts (s : Simulation) : Prop where
  wellFormed : s.predictor.WellFormed
  settled : s.predictor.pending = none
  orphans : s.predictor.tally.orphans = 0
  clock : s.predictor.tally.clock = s.accuracy.total
  attempts : s.accuracy.hits + (s.predictor.tally.allocations + s.predictor.tally.failedAllocations)
    = s.accuracy.total
  balanced : s.predictor.tally.Balanced s.predictor.config.overlay.isSome

theorem accounts_ofConfig {c : Config} (hc : c.Valid) :
    Accounts { predictor := .ofConfig c } where
  wellFormed := Predictor.wellFormed_ofConfig hc
  settled := rfl
  orphans := rfl
  clock := rfl
  attempts := rfl
  balanced := Tally.balanced_zero ..

variable {s : Simulation}

/-- The prediction that is compared is the one that is resolved, so both sides count it alike. -/
theorem Accounts.visit (h : s.Accounts) (b : UInt64 × Outcome) : (s.visit b).Accounts := by
  obtain ⟨pc, o⟩ := b
  have hw := h.wellFormed.predict pc
  have hr : s.predictor.tally.Resolved (s.visit (pc, o)).predictor.tally
      (s.predictor.lookup pc) o (s.predictor.predict pc).resetsNext :=
    hw.tally_resolve rfl pc 0 o .directBranch
  have hconfig : (s.visit (pc, o)).predictor.config = s.predictor.config :=
    Predictor.config_step (s.predictor.predict pc) (.resolve pc 0 o .directBranch)
  have hhits : (s.visit (pc, o)).accuracy.hits
      = s.accuracy.hits + ((s.predictor.lookup pc).outcome == o).toNat := by
    have hupdate := s.accuracy.hits_update (.ofKind pc 0 .directBranch o)
      (s.predictor.lookup pc).outcome
    rwa [Record.outcome_ofKind] at hupdate
  have hone : ((s.predictor.lookup pc).outcome == o).toNat
      + ((s.predictor.lookup pc).outcome != o).toNat = 1 := by
    unfold bne
    cases (s.predictor.lookup pc).outcome == o <;> rfl
  constructor
  case wellFormed => exact hw.resolve pc 0 o .directBranch
  case settled => exact Predictor.pending_resolve ..
  case orphans => exact hr.orphans.trans h.orphans
  case clock => exact hr.clock.trans (congrArg (· + 1) h.clock)
  case attempts =>
    show _ = s.accuracy.total + 1
    rw [hhits, hr.attempts, ← h.attempts]
    omega
  case balanced =>
    rw [hconfig]
    exact h.balanced.resolved (h.wellFormed.lookup pc) hr

theorem total_foldl_visit (s : Simulation) (branches : List (UInt64 × Outcome)) :
    (branches.foldl visit s).accuracy.total = s.accuracy.total + branches.length := by
  induction branches generalizing s with
  | nil => rfl
  | cons b branches ih =>
    rw [List.foldl_cons, ih, List.length_cons]
    show s.accuracy.total + 1 + _ = _
    omega

theorem Accounts.foldl_visit (h : s.Accounts) (branches : List (UInt64 × Outcome)) :
    (branches.foldl Simulation.visit s).Accounts := by
  induction branches generalizing s with
  | nil => exact h
  | cons b branches ih => exact ih (h.visit b)

section
variable (h : s.Accounts)
include h

theorem Accounts.hits_le : s.accuracy.hits ≤ s.accuracy.total :=
  h.attempts ▸ Nat.le_add_right ..

theorem Accounts.misses_eq : s.accuracy.misses
    = s.predictor.tally.allocations + s.predictor.tally.failedAllocations := by
  have hattempts := h.attempts
  unfold Accuracy.misses
  omega

theorem Accounts.lookups_eq :
    s.predictor.tally.tableHits + s.predictor.tally.tableMisses = s.accuracy.total := by
  rw [← h.clock, ← h.balanced.lookups, h.orphans, Nat.add_zero]

/-- An override that is right makes up for the provider's miss, and one that is wrong spoils the
provider's hit. -/
theorem Accounts.hits_add_overrides_eq : s.accuracy.hits + s.predictor.tally.overrides
    = s.predictor.tally.tableHits + 2 * s.predictor.tally.overrideHits := by
  have hlookups := h.lookups_eq
  have hcounted := h.attempts
  have hattempts := h.balanced.attempts
  omega

end

/-- At the end of a simulation, the branches that were counted are those that the predictor
resolved and the conditional branches among the records that were visited; no prediction is left
open; each wrong prediction was an attempt to allocate; and the right predictions are those of the
tables but for what was overruled. -/
theorem accounts_run {c : Config} {p : Predictor} (hp : Predictor.build c = .ok p)
    (limit : Option Nat) (records : List Record) :
    let s := run { predictor := p } limit records
    let t := s.predictor.tally
    s.accuracy.total = t.clock ∧
      s.accuracy.total
        = (visited limit records).countP (fun r => r.kind? == some .directBranch) ∧
      t.orphans = 0 ∧ s.predictor.pending = none ∧ s.accuracy.hits ≤ s.accuracy.total ∧
      s.accuracy.misses = t.allocations + t.failedAllocations ∧
      s.accuracy.hits + t.overrides = t.tableHits + 2 * t.overrideHits ∧
      t.tableHits + t.tableMisses = s.accuracy.total := by
  obtain ⟨hc, rfl⟩ := Predictor.build_eq_ok.1 hp
  rw [run_eq_visits]
  intro s t
  have h : s.Accounts := (accounts_ofConfig hc).foldl_visit _
  have htotal : s.accuracy.total
      = (visited limit records).countP fun r => r.kind? == some .directBranch := by
    rw [← length_filterMap_branch?]
    exact (total_foldl_visit ..).trans (Nat.zero_add _)
  exact ⟨h.clock.symm, htotal, h.orphans, h.settled, h.hits_le, h.misses_eq,
    h.hits_add_overrides_eq, h.lookups_eq⟩

/-- The second record has the branch bit set but names no kind, the third is a jump, and the limit
cuts off the fifth. -/
theorem accounts_run_small : ∃ p, Predictor.build .small = .ok p ∧
    let s := run { predictor := p } (some 4)
      [⟨6, 9, ⟨33⟩⟩, ⟨4, 0, ⟨3⟩⟩, ⟨5, 0, ⟨18⟩⟩, ⟨6, 9, ⟨65⟩⟩, ⟨6, 9, ⟨33⟩⟩]
    s.accuracy.total = 2 ∧ s.predictor.tally.clock = 2 ∧ s.predictor.pending = none ∧
      s.accuracy.misses
        = s.predictor.tally.allocations + s.predictor.tally.failedAllocations := by
  have hp : Predictor.build .small = .ok (.ofConfig .small) := by rfl
  obtain ⟨hclock, htotal, -, hpending, -, hmisses, -⟩ := accounts_run hp (some 4)
    [⟨6, 9, ⟨33⟩⟩, ⟨4, 0, ⟨3⟩⟩, ⟨5, 0, ⟨18⟩⟩, ⟨6, 9, ⟨65⟩⟩, ⟨6, 9, ⟨33⟩⟩]
  have htwo := htotal.trans (by decide : _ = 2)
  exact ⟨_, hp, htwo, hclock.symm.trans htwo, hpending, hmisses⟩

end Simulation

end BranchPrediction
