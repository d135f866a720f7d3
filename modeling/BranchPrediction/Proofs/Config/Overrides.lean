import BranchPrediction.Proofs.Config.Format

/-!
# Configurations from some of their fields

An object may give any of the fields, in any order, with members of unknown names between them; the
other fields keep their defaults. A field that is given twice is refused. Main statement:
`layouts_readPartial`.
-/

namespace BranchPrediction

open Json

/-- Objects that give some fields of a configuration, or of a part of one, with numbers in range. -/
theorem layouts_readPartial :
    (∀ c : Config, c.InRange → Config.layout.ReadsPartial c c.picked) ∧
    (∀ c : BaseConfig, c.InRange → BaseConfig.layout.ReadsPartial c c.picked) ∧
    (∀ c : TableConfig, c.InRange → TableConfig.layout.ReadsPartial c c.picked) ∧
    (∀ c : OverlayConfig, c.InRange → OverlayConfig.layout.ReadsPartial c c.picked) ∧
    ∀ c : PathConfig, c.InRange → PathConfig.layout.ReadsPartial c c.picked :=
  ⟨fun _ h => (Config.picks h).readsPartial rfl, fun _ h => (BaseConfig.picks h).readsPartial rfl,
    fun _ h => (TableConfig.picks h).readsPartial rfl,
    fun _ h => (OverlayConfig.picks h).readsPartial rfl,
    fun _ h => (PathConfig.picks h).readsPartial rfl⟩

/-- The seed and the tables are given, and between them a list under the name `x`, which is spelled
with an escape. The second text ends in the middle, right after it names the seed again. -/
theorem layouts_readPartial_seed :
    let c : Config := { Config.tage with tables := [], seed := 7 }
    c.InRange ∧
      Config.ofJson "\x7b \"seed\": 7,\"\\u0078\":[null,\"\\ud800\"],\"comp\":[]\x7d\n" = .ok c ∧
      Config.ofJson "\x7b \"seed\": 7, \"seed\"" = .error .wrongData := by
  intro c
  have hrange : c.InRange :=
    ⟨⟨⟨by decide, by decide⟩, by decide⟩, fun _ h => absurd h List.not_mem_nil, by rintro o ⟨⟩,
      by rintro p ⟨⟩, by decide⟩
  have hreads := layouts_readPartial.1 c hrange
  have hspace : IsGap [' '] := by decide
  have hline : IsGap ['\n'] := by decide
  let seed : Member := { name := "seed".toList, value := ['7'], beforeValue := [' '] }
  let other : Member := { name := "\\u0078".toList, value := "[null,\"\\ud800\"]".toList }
  let tables : Member := { name := "comp".toList, value := "[]".toList }
  have hseed : seed.Writes Config.layout.fields[4] c :=
    ⟨.of_plain (by decide), by decide, ⟨isGap_nil, isGap_nil, hspace, isGap_nil⟩⟩
  have htables : tables.Writes Config.layout.fields[1] c :=
    ⟨.of_plain (by decide), by decide, ⟨isGap_nil, isGap_nil, isGap_nil, isGap_nil⟩⟩
  have hother : other.Unknown Config.layout := by
    refine ⟨⟨['x'], ?_, by decide⟩, ?_, ⟨isGap_nil, isGap_nil, isGap_nil, isGap_nil⟩⟩
    · have hletter : IsUnit ['0', '0', '7', '8'] := ⟨rfl, by decide⟩
      exact .unit hletter (by decide) (by decide) .nil
    · have hsurrogate : IsUnit ['d', '8', '0', '0'] := ⟨rfl, by decide⟩
      have hstring : WellFormed .value "\"\\ud800\"".toList := .string (.unit hsurrogate .nil)
      have hnull : WellFormed .value "null".toList := .constant (by decide)
      exact .list (.elements isGap_nil hnull isGap_nil (.element isGap_nil hstring isGap_nil))
  have hfield : Config.layout.fields[4] ∈ Config.layout.fields := List.getElem_mem (by decide)
  have hgives : Config.layout.Gives c ["seed", "comp"] [seed, other, tables] :=
    .field hfield hseed (.unknown hother (.field (List.getElem_mem (by decide)) htables .nil))
  have hname : Spells "seed".toList "seed".toList := .of_plain (by decide)
  have hobject := hreads.object hgives (by decide) isGap_nil hspace hline
  have hrepeated := hreads.repeated [] (.field hfield hseed .nil) (List.nodup_singleton _) hfield
    List.mem_cons_self hname isGap_nil hspace hspace
  refine ⟨hrange, ?_, ?_⟩
  · have hpicked : c.picked ["seed", "comp"].toFinset = c := by simp [Config.picked, c]
    rw [hpicked] at hobject
    exact hobject
  · exact hrepeated

end BranchPrediction
