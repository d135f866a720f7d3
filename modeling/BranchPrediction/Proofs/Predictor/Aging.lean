import Mathlib.Data.Nat.Find
import Mathlib.Order.Bounds.Basic
import BranchPrediction.Proofs.Predictor.Candidates
import BranchPrediction.Proofs.Predictor.CheckedRun

/-!
# Aging before allocation

An attempt to allocate an entry either finds one that is not useful, or takes a step of usefulness
from all that it reaches and looks again. `Attempted` says what one attempt changes, and the least
usefulness among the entries in reach decides which attempt it is: the one that finds an entry comes
after as many as it takes for the least useful entry to be a step from replaceable
(`attempts_age_until_made`).
-/

namespace BranchPrediction

/-- A branch may be given the entry at place `j` of table `i`, where its slot is `s`. -/
structure Context.Reaches (ctx : Context) (tables : List TaggedTable) (i j : Nat) (s : Slot) :
    Prop where
  next_le : ctx.provider.next ≤ i
  slot : ctx.slots[i]? = some s
  place : ∃ t, tables[i]? = some t ∧ s.index &&& t.mask = j

/-- How useful the entries in reach are. -/
def Context.usefulness (ctx : Context) (tables : List TaggedTable) : Set Nat :=
  {u | ∃ i j s e, ctx.Reaches tables i j s ∧ entryIn tables i j = some e ∧ e.useful.value = u}

/-- How the tables `q` and `r` before and after an attempt differ. The entries in reach lost `lost`
steps of usefulness, which none of them was short of, and the one in table `made`, which had no
more, was given to the branch. -/
structure Attempted (ctx : Context) (outcome : Outcome) (lost : Nat) (made : Option Nat)
    (q r : List TaggedTable) : Prop where
  frame : r.map TaggedTable.frame = q.map TaggedTable.frame
  made_least : ∀ i, made = some i → ∃ j s e, ctx.Reaches q i j s ∧ entryIn q i j = some e ∧
    e.useful.value = lost
  reached : ∀ i j s, ctx.Reaches q i j s → ∃ (e : Entry) (useful : Counter),
    entryIn q i j = some e ∧ useful.max = e.useful.max ∧ useful.value + lost = e.useful.value ∧
    entryIn r i j = some (if made = some i then ⟨e.counter.setWeak outcome, useful, some s.tag⟩
      else ⟨e.counter, useful, e.tag⟩)
  elsewhere : ∀ i j, (∀ s, ¬ ctx.Reaches q i j s) → entryIn r i j = entryIn q i j

/-- The tables after `n` attempts in a row, the `k`-th of them with `choices k`. -/
def attempts (ctx : Context) (outcome : Outcome) (choices : Nat → Nat)
    (tables : List TaggedTable) : Nat → List TaggedTable
  | 0 => tables
  | n + 1 => (allocate (attempts ctx outcome choices tables n) ctx.slots ctx.provider.next outcome
      (choices n)).1

section
variable {ctx : Context} {tables : List TaggedTable}

theorem Context.mem_usefulness (h : SoundTables tables) {u : Nat} :
    u ∈ ctx.usefulness tables ↔ ∃ i e, ctx.provider.next ≤ i ∧
      entryAt? tables ctx.slots i = some e ∧ e.useful.value = u := by
  constructor
  · rintro ⟨i, j, s, e, ⟨hn, hs, t, ht, rfl⟩, he, hu⟩
    obtain ⟨t', ht', he⟩ := entryIn_eq_some.1 he
    obtain rfl := Option.some.inj (ht.symm.trans ht')
    exact ⟨i, e, hn, (entryAt?_eq_some h).2 ⟨t, s, ht, hs, he⟩, hu⟩
  · rintro ⟨i, e, hn, he, hu⟩
    obtain ⟨t, s, ht, hs, he⟩ := (entryAt?_eq_some h).1 he
    exact ⟨i, _, s, e, ⟨hn, hs, t, ht, rfl⟩, entryIn_eq_some.2 ⟨t, ht, he⟩, hu⟩

theorem withUseful_eq_nil (h : SoundTables tables) {bound : Nat} :
    withUseful bound tables ctx.slots ctx.provider.next = []
      ↔ ∀ u ∈ ctx.usefulness tables, bound < u := by
  rw [List.eq_nil_iff_forall_not_mem]
  constructor
  · intro hnone u hu
    obtain ⟨i, e, hn, he, rfl⟩ := (Context.mem_usefulness h).1 hu
    by_contra hle
    exact hnone i (mem_withUseful.2 ⟨lt_length_of_entryAt? he, hn, e, he, Nat.not_lt.1 hle⟩)
  · intro hall i hi
    obtain ⟨-, hn, e, he, hle⟩ := mem_withUseful.1 hi
    have := hall _ ((Context.mem_usefulness h).2 ⟨i, e, hn, he, rfl⟩)
    omega

/-- The entries that can be replaced are the least useful ones, if these are a step from that. -/
theorem eligible_eq_withUseful (h : SoundTables tables) {m : Nat}
    (hm : IsLeast (ctx.usefulness tables) m) (hle : m ≤ 1) :
    eligible tables ctx.slots ctx.provider.next
      = withUseful m tables ctx.slots ctx.provider.next := by
  have hnil : withUseful 0 tables ctx.slots ctx.provider.next = [] ↔ 0 < m :=
    (withUseful_eq_nil h).trans hm.lt_iff.symm
  unfold eligible
  by_cases hpos : 0 < m
  · rw [if_pos (hnil.2 hpos), show m = 1 by omega]
  · rw [if_neg (hnil.not.2 hpos), show m = 0 by omega]

/-! ## One attempt -/

/-- What becomes of the entry in slot `s` of table `i`, if the entries in reach `aged` and the one
in table `made` was allocated. -/
def attemptEffect (ctx : Context) (o : Outcome) (aged : Bool) (made : Option Nat) (i : Nat)
    (s : Slot) (e : Entry) : Entry :=
  let older := if aged = true ∧ ctx.provider.next ≤ i then e.age else e
  if made = some i then older.allocate s.tag o else older

theorem Entry.Fits.attemptEffect {c : TableConfig} {e : Entry} (h : e.Fits c) (ctx : Context)
    (o : Outcome) (aged : Bool) (made : Option Nat) (i : Nat) (s : Slot) :
    (attemptEffect ctx o aged made i s e).Fits c := by
  have holder : (if aged = true ∧ ctx.provider.next ≤ i then e.age else e).Fits c := by
    split
    · exact h.age
    · exact h
  unfold BranchPrediction.attemptEffect
  dsimp only
  split
  · exact holder.allocate ..
  · exact holder

theorem attemptEffect_of_le {i : Nat} {o : Outcome} {aged : Bool} {made : Option Nat} (s : Slot)
    (e : Entry) (hn : ctx.provider.next ≤ i) : attemptEffect ctx o aged made i s e =
      if made = some i then ⟨e.counter.setWeak o, e.useful.set 0, some s.tag⟩
      else ⟨e.counter, if aged then e.useful.decrement else e.useful, e.tag⟩ := by
  unfold attemptEffect
  cases aged <;> simp [hn] <;> rfl

theorem allocate_eq_attempt (h : SoundTables tables) (ctx : Context) (o : Outcome) (choice : Nat) :
    ∃ aged made, (aged = true ↔ ∀ u ∈ ctx.usefulness tables, 0 < u) ∧
      made = (eligible tables ctx.slots ctx.provider.next)[choice %
        (eligible tables ctx.slots ctx.provider.next).length]? ∧
      allocate tables ctx.slots ctx.provider.next o choice
        = (mapSlots ctx.slots (attemptEffect ctx o aged made) tables, made.elim .failed .made) := by
  obtain ⟨aged, hnil, ha⟩ := allocate_eq tables ctx.slots ctx.provider.next o choice
  rw [candidates_eq_withUseful, withUseful_eq_nil h] at hnil
  refine ⟨aged, _, hnil, allocate_table? h o choice, ?_⟩
  rw [ha]
  rcases claim_cases _ ctx.slots o choice _ with ⟨-, hc⟩ | ⟨i, -, -, hc⟩
  · rw [hc]
    rfl
  · rw [hc, mapSlots_mapSlots]
    refine Prod.ext (mapSlots_congr (fun k s e => ?_) _) rfl
    simp [attemptEffect, Allocation.table?, eq_comm]

theorem attempted_mapSlots (h : SoundTables tables) (o : Outcome) (aged : Bool) {made : Option Nat}
    (hage : aged = true → ∀ u ∈ ctx.usefulness tables, 0 < u)
    (hmade : ∀ i, made = some i → ∃ e, ctx.provider.next ≤ i ∧
      entryAt? tables ctx.slots i = some e ∧ e.useful.value = aged.toNat) :
    Attempted ctx o aged.toNat made tables
      (mapSlots ctx.slots (attemptEffect ctx o aged made) tables) where
  frame := map_frame_mapSlots ..
  made_least i hi := by
    obtain ⟨e, hn, he, hu⟩ := hmade i hi
    obtain ⟨t, s, ht, hs, he⟩ := (entryAt?_eq_some h).1 he
    exact ⟨_, s, e, ⟨hn, hs, t, ht, rfl⟩, entryIn_eq_some.2 ⟨t, ht, he⟩, hu⟩
  reached i j s hr := by
    obtain ⟨hn, hs, t, ht, rfl⟩ := hr
    obtain ⟨hw, hv⟩ := h t (List.mem_of_getElem? ht)
    have he := hw.shaped.getElem?_entries hv s.index
    have hentry : entryIn tables i (s.index &&& t.mask) = some (t.entry s.index) :=
      entryIn_eq_some.2 ⟨t, ht, he⟩
    have hat : entryAt? tables ctx.slots i = some (t.entry s.index) :=
      (entryAt?_eq_some h).2 ⟨t, s, ht, hs, he⟩
    have hafter : entryIn (mapSlots ctx.slots (attemptEffect ctx o aged made) tables) i
        (s.index &&& t.mask) = some (attemptEffect ctx o aged made i s (t.entry s.index)) := by
      rw [entryIn_mapSlots, hentry, ht, hs]
      simp
    rw [hafter, attemptEffect_of_le s _ hn]
    by_cases hm : made = some i
    · obtain ⟨e, -, hleast, hu⟩ := hmade i hm
      obtain rfl := Option.some.inj (hat.symm.trans hleast)
      exact ⟨_, (t.entry s.index).useful.set 0, hentry, rfl, by simp [hu], by simp [hm]⟩
    · refine ⟨_, if aged then (t.entry s.index).useful.decrement else (t.entry s.index).useful,
        hentry, ?_, ?_, by simp [hm]⟩
      · cases aged <;> rfl
      · cases aged with
        | false => rfl
        | true =>
          have := hage rfl _ ((Context.mem_usefulness h).2 ⟨i, _, hn, hat, rfl⟩)
          rw [if_pos rfl, Counter.value_decrement, Bool.toNat_true]
          omega
  elsewhere i j hno := by
    refine entryIn_mapSlots_eq_self _ _ _ fun t s e ht hs hj => ?_
    have hn : ¬ ctx.provider.next ≤ i := fun hn => hno s ⟨hn, hs, t, ht, hj⟩
    have hm : made ≠ some i := by
      intro hm
      obtain ⟨-, hle, -⟩ := hmade i hm
      exact hn hle
    unfold attemptEffect
    rw [if_neg hm, if_neg fun hold => hn hold.2]

theorem made_of_isLeast (h : SoundTables tables) {m : Nat}
    (hm : IsLeast (ctx.usefulness tables) m) (hle : m ≤ 1) (o : Outcome) (choice : Nat) :
    ∃ i, (allocate tables ctx.slots ctx.provider.next o choice).2 = .made i ∧
      Attempted ctx o m (some i) tables
        (allocate tables ctx.slots ctx.provider.next o choice).1 := by
  obtain ⟨aged, made, hage, hmade, ha⟩ := allocate_eq_attempt h ctx o choice
  have hlost : aged.toNat = m := by
    have hiff : aged = true ↔ 0 < m := hage.trans hm.lt_iff.symm
    cases aged with
    | false => exact (show m = 0 by simpa using hiff).symm
    | true => exact Nat.le_antisymm (hiff.1 rfl) hle
  have hne : withUseful m tables ctx.slots ctx.provider.next ≠ [] := by
    intro hnil
    exact Nat.lt_irrefl m ((withUseful_eq_nil h).1 hnil m hm.1)
  have hlt := Nat.mod_lt choice (List.length_pos_iff.2 hne)
  rw [eligible_eq_withUseful h hm hle, List.getElem?_eq_getElem hlt] at hmade
  obtain ⟨i, rfl, hi⟩ : ∃ i, made = some i ∧ i ∈ withUseful m tables ctx.slots ctx.provider.next :=
    ⟨_, hmade, List.getElem_mem hlt⟩
  obtain ⟨-, hn, e, he, hu⟩ := mem_withUseful.1 hi
  have hleast := hm.2 ((Context.mem_usefulness h).2 ⟨i, e, hn, he, rfl⟩)
  rw [ha, ← hlost]
  refine ⟨i, rfl, attempted_mapSlots h o aged hage.1 fun k hk => ?_⟩
  obtain rfl := Option.some.inj hk
  exact ⟨e, hn, he, by omega⟩

theorem failed_of_one_lt (h : SoundTables tables) (hall : ∀ u ∈ ctx.usefulness tables, 1 < u)
    (o : Outcome) (choice : Nat) :
    (allocate tables ctx.slots ctx.provider.next o choice).2 = .failed ∧
      Attempted ctx o 1 none tables
        (allocate tables ctx.slots ctx.provider.next o choice).1 := by
  obtain ⟨aged, made, hage, hmade, ha⟩ := allocate_eq_attempt h ctx o choice
  have hpos : ∀ u ∈ ctx.usefulness tables, 0 < u := fun u hu => Nat.lt_of_succ_lt (hall u hu)
  have hnone : eligible tables ctx.slots ctx.provider.next = [] := by
    unfold eligible
    rw [if_pos ((withUseful_eq_nil h).2 hpos), (withUseful_eq_nil h).2 hall]
  obtain rfl : aged = true := hage.2 hpos
  obtain rfl : made = none := by rw [hmade, hnone]; rfl
  rw [ha]
  refine ⟨rfl, attempted_mapSlots h o true (fun _ => hpos) ?_⟩
  rintro i ⟨⟩

theorem SoundTables.allocate (h : SoundTables tables) (o : Outcome) (choice : Nat) :
    SoundTables (allocate tables ctx.slots ctx.provider.next o choice).1 := by
  obtain ⟨aged, made, -, -, ha⟩ := allocate_eq_attempt h ctx o choice
  rw [ha]
  exact h.mapSlots _ fun i s c e he => he.attemptEffect ..

end

namespace Attempted

variable {ctx : Context} {o : Outcome} {lost : Nat} {made : Option Nat} {q r : List TaggedTable}

theorem reaches_iff (ha : Attempted ctx o lost made q r) {i j : Nat} {s : Slot} :
    ctx.Reaches r i j s ↔ ctx.Reaches q i j s := by
  have hmask : r.map TaggedTable.mask = q.map TaggedTable.mask := by
    have := congrArg (List.map TaggedTable.mask) ha.frame
    rwa [List.map_map, List.map_map] at this
  have hplace : ∀ tables : List TaggedTable, (∃ t, tables[i]? = some t ∧ s.index &&& t.mask = j) ↔
      ∃ k, (tables.map TaggedTable.mask)[i]? = some k ∧ s.index &&& k = j := by
    intro tables
    simp
  constructor
  · rintro ⟨hn, hs, ht⟩
    exact ⟨hn, hs, (hplace q).2 (hmask ▸ (hplace r).1 ht)⟩
  · rintro ⟨hn, hs, ht⟩
    exact ⟨hn, hs, (hplace r).2 (hmask ▸ (hplace q).1 ht)⟩

theorem mem_usefulness (ha : Attempted ctx o lost made q r) {u : Nat} :
    u ∈ ctx.usefulness r ↔ u + lost ∈ ctx.usefulness q := by
  have huseful : ∀ (e : Entry) (useful : Counter) (i : Nat) (s : Slot),
      (if made = some i then (⟨e.counter.setWeak o, useful, some s.tag⟩ : Entry)
        else ⟨e.counter, useful, e.tag⟩).useful = useful := by
    intro e useful i s
    split <;> rfl
  constructor
  · rintro ⟨i, j, s, e', hr, he', rfl⟩
    obtain ⟨e, useful, he, -, hvalue, hafter⟩ := ha.reached i j s (ha.reaches_iff.1 hr)
    obtain rfl := Option.some.inj (hafter.symm.trans he')
    exact ⟨i, j, s, e, ha.reaches_iff.1 hr, he, by rw [huseful, hvalue]⟩
  · rintro ⟨i, j, s, e', hr, he', hu⟩
    obtain ⟨e, useful, he, -, hvalue, hafter⟩ := ha.reached i j s hr
    obtain rfl := Option.some.inj (he.symm.trans he')
    exact ⟨i, j, s, _, ha.reaches_iff.2 hr, hafter, by rw [huseful]; omega⟩

/-- A failed attempt brings the least useful entry a step closer. -/
theorem isLeast (ha : Attempted ctx o 1 none q r) {m : Nat}
    (hm : IsLeast (ctx.usefulness q) m) (hpos : 0 < m) : IsLeast (ctx.usefulness r) (m - 1) := by
  refine ⟨ha.mem_usefulness.2 ?_, fun u hu => ?_⟩
  · rw [Nat.sub_add_cancel hpos]
    exact hm.1
  · have := hm.2 (ha.mem_usefulness.1 hu)
    omega

theorem eq_self (ha : Attempted ctx o lost made q r) (hnone : ∀ i j s, ¬ ctx.Reaches q i j s) :
    r = q :=
  eq_of_frame_entryIn ha.frame fun i j => ha.elsewhere i j fun s => hnone i j s

end Attempted

/-! ## Attempts in a row -/

section
variable {ctx : Context} {o : Outcome} {choices : Nat → Nat} {tables : List TaggedTable}

theorem soundTables_attempts (h : SoundTables tables) (n : Nat) :
    SoundTables (attempts ctx o choices tables n) := by
  induction n with
  | zero => exact h
  | succ n ih => exact ih.allocate o (choices n)

theorem length_attempts (h : SoundTables tables) (n : Nat) :
    (attempts ctx o choices tables n).length = tables.length := by
  induction n with
  | zero => rfl
  | succ n ih =>
    obtain ⟨aged, made, -, -, ha⟩ :=
      allocate_eq_attempt (soundTables_attempts h n) ctx o (choices n)
    show (allocate _ _ _ _ _).1.length = _
    rw [ha, length_mapSlots, ih]

/-- Each attempt before the one that finds an entry takes one step from the least usefulness. -/
theorem isLeast_attempts (h : SoundTables tables) {m : Nat}
    (hm : IsLeast (ctx.usefulness tables) m) {n : Nat} (hn : n ≤ m - 1) :
    IsLeast (ctx.usefulness (attempts ctx o choices tables n)) (m - n) := by
  induction n with
  | zero => exact hm
  | succ n ih =>
    have hleast := ih (Nat.le_of_succ_le hn)
    have hall : ∀ u ∈ ctx.usefulness (attempts ctx o choices tables n), 1 < u :=
      hleast.lt_iff.1 (by omega)
    have ha := (failed_of_one_lt (soundTables_attempts h n) hall o (choices n)).2
    rw [show m - (n + 1) = m - n - 1 by omega]
    exact ha.isLeast hleast (by omega)

theorem exists_isLeast_of_mem {u : Nat} (hu : u ∈ ctx.usefulness tables) :
    ∃ m ≤ u, IsLeast (ctx.usefulness tables) m := by
  classical
  have hne : ∃ u, u ∈ ctx.usefulness tables := ⟨u, hu⟩
  exact ⟨Nat.find hne, Nat.find_min' hne hu, Nat.find_spec hne, fun v hv => Nat.find_min' hne hv⟩

theorem exists_mem_usefulness (h : SoundTables tables) (hs : ctx.slots.length = tables.length)
    (hlt : ctx.provider.next < tables.length) : ∃ u, u ∈ ctx.usefulness tables := by
  have hslot : ctx.provider.next < ctx.slots.length := hs ▸ hlt
  obtain ⟨e, he⟩ : ∃ e, entryAt? tables ctx.slots ctx.provider.next = some e :=
    ⟨_, by rw [entryAt?, List.getElem?_eq_getElem hlt, List.getElem?_eq_getElem hslot]⟩
  exact ⟨_, (Context.mem_usefulness h).2 ⟨_, e, Nat.le_refl _, he, rfl⟩⟩

theorem allocate_of_le (h : SoundTables tables) (hle : tables.length ≤ ctx.provider.next)
    (o : Outcome) (choice : Nat) :
    allocate tables ctx.slots ctx.provider.next o choice = (tables, .failed) := by
  have hnone : ∀ i j s, ¬ ctx.Reaches tables i j s := by
    rintro i j s ⟨hn, -, t, ht, -⟩
    have := (List.getElem?_eq_some_iff.1 ht).1
    omega
  have hall : ∀ u ∈ ctx.usefulness tables, 1 < u := by
    rintro u ⟨i, j, s, e, hr, -⟩
    exact absurd hr (hnone i j s)
  obtain ⟨hfailed, ha⟩ := failed_of_one_lt h hall o choice
  exact Prod.ext (ha.eq_self hnone) hfailed

theorem attempts_of_le (h : SoundTables tables) (hle : tables.length ≤ ctx.provider.next)
    (n : Nat) : attempts ctx o choices tables n = tables := by
  induction n with
  | zero => rfl
  | succ n ih =>
    show (allocate (attempts ctx o choices tables n) _ _ _ _).1 = tables
    rw [ih, allocate_of_le h hle]

/-- Attempts in a row, with tables in whatever state. Where no table has a longer history than the
provider's they all fail and change nothing. Otherwise let `m` be the least usefulness among the
entries in reach: until the least useful one is a step from replaceable, each attempt fails and takes
one step from all of them, and the attempt after that finds an entry. An attempt counts as an
allocation if some entry in reach is at most a step from replaceable, and else as a failed one. -/
theorem attempts_age_until_made (h : SoundTables tables) (ctx : Context)
    (hs : ctx.slots.length = tables.length) (o : Outcome) (choices : Nat → Nat) :
    let before := attempts ctx o choices tables
    let attempt := fun n => allocate (before n) ctx.slots ctx.provider.next o (choices n)
    (∀ n, Predictor.allocate? (before n) ctx.slots ctx.provider.next (choices n) = some ()) ∧
    (tables.length ≤ ctx.provider.next → ∀ n, attempt n = (tables, .failed)) ∧
    (ctx.provider.next < tables.length → ∃ m, IsLeast (ctx.usefulness tables) m ∧
      (∀ n < m - 1, (attempt n).2 = .failed ∧
        Attempted ctx o 1 none (before n) (before (n + 1))) ∧
      ∃ i, (attempt (m - 1)).2 = .made i ∧
        Attempted ctx o (min m 1) (some i) (before (m - 1)) (before (m - 1 + 1))) ∧
    ∀ n (t : Tally),
      ((∃ u ∈ ctx.usefulness (before n), u ≤ 1) → t.countAllocation (attempt n).2
        = { t with allocations := t.allocations + 1 }) ∧
      ((∀ u ∈ ctx.usefulness (before n), 1 < u) → t.countAllocation (attempt n).2
        = { t with failedAllocations := t.failedAllocations + 1 }) := by
  intro before attempt
  have hsound : ∀ n, SoundTables (before n) := soundTables_attempts h
  refine ⟨fun n => ?_, fun hle n => ?_, fun hlt => ?_, fun n t => ⟨fun hu => ?_, fun hall => ?_⟩⟩
  · apply Predictor.allocate?_eq_some (hsound n)
    exact Nat.le_of_eq ((length_attempts h n).trans hs.symm)
  · show allocate (attempts ctx o choices tables n) _ _ _ _ = _
    rw [attempts_of_le h hle, allocate_of_le h hle]
  · obtain ⟨u, hu⟩ := exists_mem_usefulness h hs hlt
    obtain ⟨m, -, hm⟩ := exists_isLeast_of_mem hu
    refine ⟨m, hm, fun n hn => ?_, ?_⟩
    · have hleast : IsLeast (ctx.usefulness (before n)) (m - n) :=
        isLeast_attempts h hm (Nat.le_of_lt hn)
      exact failed_of_one_lt (hsound n) (hleast.lt_iff.1 (by omega)) o (choices n)
    · have hleast : IsLeast (ctx.usefulness (before (m - 1))) (m - (m - 1)) :=
        isLeast_attempts h hm (Nat.le_refl _)
      rw [show m - (m - 1) = min m 1 by omega] at hleast
      exact made_of_isLeast (hsound _) hleast (Nat.min_le_right ..) o (choices (m - 1))
  · obtain ⟨u, hu, hle⟩ := hu
    obtain ⟨m, hmu, hm⟩ := exists_isLeast_of_mem hu
    obtain ⟨i, hmade, -⟩ := made_of_isLeast (hsound n) hm (Nat.le_trans hmu hle) o (choices n)
    rw [hmade]
    rfl
  · rw [(failed_of_one_lt (hsound n) hall o (choices n)).1]
    rfl

end

/-- The only entry in reach has a usefulness of three: it ages twice, and once more when it is
given to the branch. -/
theorem attempts_age_until_made_small :
    let ctx := { (Predictor.ofConfig .small).lookup 6 with provider := .tagged 0 }
    let tables := mapSlots ctx.slots (fun _ _ e => { e with useful := e.useful.set 3 })
      (Predictor.ofConfig .small).tables
    let before := attempts ctx .taken id tables
    IsLeast (ctx.usefulness tables) 3 ∧
      (∀ n < 2, Attempted ctx .taken 1 none (before n) (before (n + 1))) ∧
      Attempted ctx .taken 1 (some 1) (before 2) (before 3) := by
  intro ctx tables before
  have hvalid : Config.small.Valid := Config.validate_eq_ok.1 (by decide)
  have hsound : SoundTables tables :=
    (Predictor.wellFormed_ofConfig hvalid).soundTables.mapSlots _
      fun i s c e he => ⟨he.counter, he.useful⟩
  obtain ⟨-, -, hrun, -⟩ := attempts_age_until_made hsound ctx (by decide) .taken id
  obtain ⟨m, hm, hfailed, i, hmade, hattempted⟩ := hrun (by decide)
  have hresults : (allocate (before 0) ctx.slots 1 .taken 0).2 = .failed ∧
      (allocate (before 1) ctx.slots 1 .taken 1).2 = .failed ∧
      (allocate (before 2) ctx.slots 1 .taken 2).2 = .made 1 := by decide +kernel
  obtain ⟨hzero, hone, htwo⟩ := hresults
  have hm3 : m - 1 = 2 := by
    rcases Nat.lt_trichotomy (m - 1) 2 with hlt | heq | hgt
    · rcases (show m - 1 = 0 ∨ m - 1 = 1 by omega) with h0 | h1
      · rw [h0] at hmade
        cases hzero.symm.trans hmade
      · rw [h1] at hmade
        cases hone.symm.trans hmade
    · exact heq
    · cases htwo.symm.trans (hfailed 2 hgt).1
  obtain rfl : m = 3 := by omega
  obtain rfl : 1 = i := Allocation.made.inj (htwo.symm.trans hmade)
  exact ⟨hm, fun n hn => (hfailed n hn).2, hattempted⟩

end BranchPrediction
