import Mathlib.Data.List.Induction
import Mathlib.Data.List.Nodup
import Mathlib.Order.Bounds.Basic
import BranchPrediction.Proofs.Predictor.CheckedRun
import BranchPrediction.Proofs.Sorting

/-!
# Configurations put together table by table

Each table that is added is put behind the others, and then all are sorted by the length of their
histories. `Arranged` says what that comes to; one lemma says that an addition keeps it, and an
induction carries it over all additions (`arranged_compose`). Between different lengths it leaves no
choice (`Arranged.eq_of_perm`), so that the order of the additions does not matter then. Main
statement: `compose_arranged`.
-/

namespace BranchPrediction

/-- Tables in order of history length, tables of equal length in the order they were added. -/
structure Arranged (added tables : List TableConfig) : Prop where
  perm : tables.Perm added
  nondecreasing : tables.Pairwise fun s t => s.historyLength ≤ t.historyLength
  ties : ∀ n, tables.filter (·.historyLength == n) = added.filter (·.historyLength == n)

def Config.compose (base : BaseConfig) (ts : List TableConfig) : Config :=
  ts.foldl Config.add (.ofBase base)

theorem Arranged.add {added : List TableConfig} {c : Config} (h : Arranged added c.tables)
    (t : TableConfig) : Arranged (added ++ [t]) (c.add t).tables where
  perm := (List.mergeSort_perm _ _).trans (h.perm.append_right [t])
  nondecreasing := pairwise_mergeSort_key TableConfig.historyLength (c.tables ++ [t])
  ties n := by
    rw [List.filter_append, ← h.ties n, ← List.filter_append]
    exact filter_mergeSort_key TableConfig.historyLength (c.tables ++ [t]) n

namespace Config

theorem compose_concat (base : BaseConfig) (ts : List TableConfig) (t : TableConfig) :
    compose base (ts ++ [t]) = (compose base ts).add t := by
  rw [compose, List.foldl_append]
  rfl

theorem compose_eq (base : BaseConfig) (ts : List TableConfig) :
    compose base ts = { ofBase base with tables := (compose base ts).tables } := by
  induction ts using List.reverseRecOn with
  | nil => rfl
  | append_singleton ts t ih => rw [compose_concat, ih]; rfl

@[simp] theorem base_compose (base : BaseConfig) (ts : List TableConfig) :
    (compose base ts).base = base := by
  rw [compose_eq]
  rfl

@[simp] theorem overlay_compose (base : BaseConfig) (ts : List TableConfig) :
    (compose base ts).overlay = none := by
  rw [compose_eq]
  rfl

@[simp] theorem path_compose (base : BaseConfig) (ts : List TableConfig) :
    (compose base ts).path = none := by
  rw [compose_eq]
  rfl

theorem arranged_compose (base : BaseConfig) (ts : List TableConfig) :
    Arranged ts (compose base ts).tables := by
  induction ts using List.reverseRecOn with
  | nil => exact ⟨.nil, .nil, fun _ => rfl⟩
  | append_singleton ts t ih =>
    rw [compose_concat]
    exact ih.add t

end Config

namespace Arranged

variable {added tables : List TableConfig}

theorem increasing (h : Arranged added tables)
    (hdistinct : (added.map TableConfig.historyLength).Nodup) :
    (tables.map TableConfig.historyLength).Pairwise (· < ·) := by
  have hne : (tables.map TableConfig.historyLength).Nodup :=
    ((h.perm.map _).nodup_iff).2 hdistinct
  rw [List.pairwise_map]
  exact (h.nondecreasing.and (List.pairwise_map.1 hne)).imp fun ⟨hle, hne⟩ =>
    Nat.lt_of_le_of_ne hle hne

/-- The same tables, of different lengths, are arranged in one way only. -/
theorem eq_of_perm {added' tables' : List TableConfig} (h : Arranged added tables)
    (h' : Arranged added' tables') (hperm : added.Perm added')
    (hdistinct : (added.map TableConfig.historyLength).Nodup) : tables = tables' := by
  have hall : tables.Perm tables' := (h.perm.trans hperm).trans h'.perm.symm
  refine List.Perm.eq_of_pairwise (fun s t hs ht hst hts => ?_) h.nondecreasing h'.nondecreasing
    hall
  exact List.inj_on_of_nodup_map hdistinct (h.perm.mem_iff.1 hs)
    (h.perm.mem_iff.1 (hall.mem_iff.2 ht)) (Nat.le_antisymm hst hts)

end Arranged

theorem foldl_max_mem (l : List Nat) (a : Nat) : l.foldl max a = a ∨ l.foldl max a ∈ l := by
  induction l generalizing a with
  | nil => exact .inl rfl
  | cons b l ih =>
    rcases ih (max a b) with hmax | hmem
    · rcases Nat.le_total a b with hle | hle
      · exact .inr (List.mem_cons.2 (.inl (hmax.trans (Nat.max_eq_right hle))))
      · exact .inl (hmax.trans (Nat.max_eq_left hle))
    · exact .inr (List.mem_cons_of_mem b hmem)

theorem Config.exists_globalLength_eq {c : Config} (hne : c.tables ≠ []) :
    ∃ longest, IsGreatest {n | ∃ t ∈ c.tables, t.historyLength = n} longest ∧
      c.globalLength = longest + 1 := by
  refine ⟨c.historyLengths.foldl max 0, ⟨?_, ?_⟩, rfl⟩
  · rcases foldl_max_mem c.historyLengths 0 with hzero | hmem
    · -- then all lengths are zero
      obtain ⟨t, ht⟩ := List.exists_mem_of_ne_nil _ hne
      have hle : t.historyLength ≤ c.historyLengths.foldl max 0 :=
        le_foldl_max (.inr (List.mem_map_of_mem ht))
      exact ⟨t, ht, by omega⟩
    · exact List.mem_map.1 hmem
  · rintro n ⟨t, ht, rfl⟩
    exact le_foldl_max (.inr (List.mem_map_of_mem ht))

/-! ## Building -/

theorem Config.valid_compose {base : BaseConfig} {ts : List TableConfig} (hne : ts ≠ [])
    (hdistinct : (ts.map TableConfig.historyLength).Nodup)
    (hpos : ∀ t ∈ ts, 0 < t.historyLength) (hbase : base.Valid) (hts : ∀ t ∈ ts, t.Valid) :
    (compose base ts).Valid := by
  have harranged := arranged_compose base ts
  have hreset : (compose base ts).usefulResetLog2 = 26 := by rw [compose_eq]; rfl
  refine ⟨by simpa using hbase, fun hnil => ?_, fun t ht => hts t (harranged.perm.mem_iff.1 ht), ?_,
    by simp, by simp, by omega, by omega⟩
  · exact hne (List.perm_nil.1 (hnil ▸ harranged.perm.symm))
  · refine List.pairwise_cons.2 ⟨fun n hn => ?_, harranged.increasing hdistinct⟩
    obtain ⟨t, ht, rfl⟩ := List.mem_map.1 hn
    exact hpos t (harranged.perm.mem_iff.1 ht)

theorem Config.fits_compose {base : BaseConfig} {ts : List TableConfig} (hbase : base.fits = true)
    (hts : ∀ t ∈ ts, t.fits = true) (hglobal : fitsHistory (compose base ts).globalLength = true) :
    (compose base ts).fits = true := by
  have htables : ∀ t ∈ (compose base ts).tables, t.fits = true := fun t ht =>
    hts t ((arranged_compose base ts).perm.mem_iff.1 ht)
  exact fits_eq_true.2 ⟨by simpa using hbase, htables, by simp, hglobal, by simp⟩

namespace Predictor

theorem build?_eq_some {c : Config} (hc : c.Valid) (hf : c.fits = true) :
    build? c = some (.ok (ofConfig c)) := by
  unfold build?
  rw [Config.validate_eq_ok.2 hc, ofConfig?_eq_some hc hf]
  rfl

/-- After each addition the tables are in order of history length, and tables of equal length in
the order they were added. If all lengths are different, the order of the additions does not matter.
If besides there are tables, all with a history, and each part is valid on its own, then the whole
is valid, and a predictor is built. It has its tables in strictly increasing order of history
length, and a global history one bit longer than the longest of theirs. If there is room for each
part, none fails to be built. -/
theorem compose_arranged (base : BaseConfig) (ts : List TableConfig) :
    (∀ added, added <+: ts → Arranged added (Config.compose base added).tables) ∧
    ((ts.map TableConfig.historyLength).Nodup →
      (∀ us, us.Perm ts → Config.compose base us = Config.compose base ts) ∧
      (ts ≠ [] → (∀ t ∈ ts, 0 < t.historyLength) → base.validate = .ok () →
        (∀ t ∈ ts, t.validate = .ok ()) →
        (Config.compose base ts).validate = .ok () ∧
        ∃ p longest, build (Config.compose base ts) = .ok p ∧
          (p.tables.map TaggedTable.config).Perm ts ∧
          (p.tables.map (·.config.historyLength)).Pairwise (· < ·) ∧
          IsGreatest {n | ∃ t ∈ ts, t.historyLength = n} longest ∧
          p.global.length = longest + 1 ∧
          (base.fits = true → (∀ t ∈ ts, t.fits = true) → fitsHistory p.global.length = true →
            build? (Config.compose base ts) = some (.ok p)))) := by
  have harranged := Config.arranged_compose base ts
  refine ⟨fun added _ => Config.arranged_compose base added, fun hdistinct => ⟨fun us hperm => ?_,
    fun hne hpos hbase hts => ?_⟩⟩
  · rw [Config.compose_eq base us, Config.compose_eq base ts,
      harranged.eq_of_perm (Config.arranged_compose base us) hperm.symm hdistinct]
  · have hvalid : (Config.compose base ts).Valid :=
      Config.valid_compose hne hdistinct hpos (BaseConfig.validate_eq_ok.1 hbase)
        fun t ht => TableConfig.validate_eq_ok.1 (hts t ht)
    obtain ⟨longest, hlongest, hlength⟩ := Config.exists_globalLength_eq hvalid.tables_ne
    have hwell := wellFormed_ofConfig hvalid
    have htables : (ofConfig (Config.compose base ts)).tables.map TaggedTable.config
        = (Config.compose base ts).tables := hwell.tables_config
    refine ⟨Config.validate_eq_ok.2 hvalid, ofConfig (Config.compose base ts), longest,
      build_eq_ok.2 ⟨hvalid, rfl⟩, ?_, ?_, ?_, hwell.global.trans hlength,
      fun hb ht hg => build?_eq_some hvalid (Config.fits_compose hb ht (hwell.global ▸ hg))⟩
    · rw [htables]
      exact harranged.perm
    · have hincreasing := harranged.increasing hdistinct
      rwa [← htables, List.map_map] at hincreasing
    · simpa only [harranged.perm.mem_iff] using hlongest

/-- The longest history is added first. -/
theorem compose_arranged_small :
    let base : BaseConfig := ⟨⟨2, none⟩, 2⟩
    let long : TableConfig := ⟨2, 5, 2, 1, ⟨2, none⟩⟩
    let short : TableConfig := ⟨4, 1, 3, 2, ⟨3, none⟩⟩
    let middle : TableConfig := ⟨8, 3, 4, 1, ⟨1, some 1⟩⟩
    let c := Config.compose base [long, short, middle]
    Arranged [long, short] (Config.compose base [long, short]).tables ∧
      Config.compose base [middle, long, short] = c ∧ c.validate = .ok () ∧
      ∃ p, build c = .ok p ∧ (p.tables.map (·.config.historyLength)).Pairwise (· < ·) ∧
        p.global.length = 6 ∧ build? c = some (.ok p) := by
  intro base long short middle c
  obtain ⟨harranged, hdistinct⟩ := compose_arranged base [long, short, middle]
  obtain ⟨horder, hvalid⟩ := hdistinct (by decide)
  obtain ⟨hok, p, longest, hbuild, -, hincreasing, hlongest, hlength, hbuild?⟩ :=
    hvalid (by decide) (by decide) (by decide) (by decide)
  have hfive : IsGreatest {n | ∃ t ∈ [long, short, middle], t.historyLength = n} 5 := by
    refine ⟨⟨long, by decide, rfl⟩, ?_⟩
    rintro n ⟨t, ht, rfl⟩
    exact (by decide : ∀ t ∈ [long, short, middle], t.historyLength ≤ 5) t ht
  obtain rfl := hlongest.unique hfive
  exact ⟨harranged _ ⟨[middle], rfl⟩, horder _ (by decide), hok, p, hbuild, hincreasing, hlength,
    hbuild? (by decide) (by decide) (by rw [hlength]; decide)⟩

end Predictor

end BranchPrediction
