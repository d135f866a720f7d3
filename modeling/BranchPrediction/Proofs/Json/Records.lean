import BranchPrediction.Proofs.Json.RoundTrip
import Mathlib.Data.Finset.Insert
import Mathlib.Data.Finset.Basic

/-!
# Records from their members

`Layout.Gives` says that members write some fields of a record, in some order, and that the other
members have unknown names. Reading takes the fields that are given from the record and leaves the
others blank, which is what `pick` stands for in `Layout.Picks`. One lemma says what each kind of
member does; `readMembers_run` carries it over all members. Main statements: `Layout.read_object`,
`Layout.read_repeated`, `Layout.Picks.readsPartial` and `Layout.Picks.readsBack`.
-/

namespace BranchPrediction.Json

def objectText (gap : List Char) (ts : List (List Char)) : List Char :=
  openBrace :: (gap ++ (commaSeparated ts ++ [closeBrace]))

variable {σ : Type}

/-- The member writes a field of a record. The name may be spelled in any way. -/
structure Member.Writes (m : Member) (f : Field σ) (x : σ) : Prop where
  spells : Spells m.name f.name.toList
  value_eq : m.value = f.write x
  spaced : m.Spaced

/-- The member has a name that no field has, and a well-formed value. -/
structure Member.Unknown (m : Member) (l : Layout σ) : Prop where
  spells : ∃ name, Spells m.name name ∧ ∀ f ∈ l.fields, f.name.toList ≠ name
  wellFormed : WellFormed .value m.value
  spaced : m.Spaced

/-- The members write the fields of `x` that have the given names, in this order. Members of
unknown names stand anywhere. -/
inductive Layout.Gives (l : Layout σ) (x : σ) : List String → List Member → Prop where
  | nil : l.Gives x [] []
  | field {f : Field σ} {m : Member} {names : List String} {ms : List Member} :
      f ∈ l.fields → m.Writes f x → l.Gives x names ms → l.Gives x (f.name :: names) (m :: ms)
  | unknown {m : Member} {names : List String} {ms : List Member} :
      m.Unknown l → l.Gives x names ms → l.Gives x names (m :: ms)

/-- What is written of a field is read as the field, whatever fields have been read before. -/
structure Field.Picked (f : Field σ) (x : σ) (pick : Finset String → σ) : Prop where
  opens : Opens (f.write x)
  read : ∀ S s rest, skipBlank s = f.write x ++ rest → EndsNumeral rest →
    f.read (pick S) s = .ok (pick (insert f.name S), rest)

theorem Field.picked_of {α : Type} {name : String} {c : Codec α} {get : σ → α} {set : σ → α → σ}
    {x : σ} {pick : Finset String → σ} (h : c.ReadsBack (get x))
    (hset : ∀ S, set (pick S) (get x) = pick (insert name S)) :
    (Field.of name c get set).Picked x pick where
  opens := h.opens
  read S s rest hs hr := by
    simp only [Field.of, h.read s rest hs hr, bind, Except.bind, hset]

/-- The fields have different names of plain characters, and the required ones are fields. -/
structure Layout.WellNamed (l : Layout σ) : Prop where
  nodup : (l.fields.map Field.name).Nodup
  plain : ∀ f ∈ l.fields, ∀ c ∈ f.name.toList, IsPlain c
  required : ∀ n ∈ l.required, n ∈ l.fields.map Field.name

/-- `pick S` is the blank record with the fields in `S` taken from `x`. -/
structure Layout.Picks (l : Layout σ) (x : σ) (pick : Finset String → σ) : Prop where
  wellNamed : l.WellNamed
  blank : pick ∅ = l.blank
  all : pick (l.fields.map Field.name).toFinset = x
  field : ∀ f ∈ l.fields, f.Picked x pick

namespace Layout

variable {l : Layout σ} {x : σ} {pick : Finset String → σ}

theorem WellNamed.find?_eq (h : l.WellNamed) {f : Field σ} (hf : f ∈ l.fields) :
    l.fields.find? (fun g => g.name.toList == f.name.toList) = some f := by
  cases hfind : l.fields.find? (fun g => g.name.toList == f.name.toList) with
  | none => exact absurd (beq_self_eq_true _) (List.find?_eq_none.1 hfind f hf)
  | some g =>
    have hname : g.name = f.name := String.toList_inj.1 (by simpa using List.find?_some hfind)
    rw [List.inj_on_of_nodup_map h.nodup (List.mem_of_find?_eq_some hfind) hf hname]

/-! ## Reading members -/

theorem memberStart_member {m : Member} (hm : m.Spaced) {gap : List Char} (hg : IsGap gap)
    (first : Bool) (rest : List Char) :
    memberStart first (gap ++ (leading first ++ (m.text ++ rest)))
      = .ok (true, m.name ++ '"' :: (m.afterName ++ ':' :: (m.beforeValue
          ++ (m.value ++ (m.after ++ rest))))) := by
  have hstart : skipBlank (m.text ++ rest) = '"' :: (m.tail ++ rest) := by
    rw [Member.text, List.append_assoc, skipBlank_gap hm.before]
    rfl
  rw [memberStart_leading first hg hstart]
  simp [Member.tail]

theorem readMembers_field (hp : l.Picks x pick) {f : Field σ} (hf : f ∈ l.fields) {m : Member}
    (hm : m.Writes f x) {seen : List String} (hnew : f.name ∉ seen) {gap rest : List Char}
    (hg : IsGap gap) (hr : EndsNumeral rest) (count : Nat) (first : Bool) :
    l.readMembers (count + 1) first seen (pick seen.toFinset)
        (gap ++ (leading first ++ (m.text ++ rest)))
      = l.readMembers count false (f.name :: seen) (pick (f.name :: seen).toFinset)
          (m.after ++ rest) := by
  have hopens : Opens m.value := hm.value_eq ▸ (hp.field f hf).opens
  have hread : f.read (pick seen.toFinset) (m.beforeValue ++ (m.value ++ (m.after ++ rest)))
      = .ok (pick (f.name :: seen).toFinset, m.after ++ rest) := by
    rw [List.toFinset_cons]
    refine (hp.field f hf).read _ _ _ ?_ (hr.gap hm.spaced.after)
    rw [hopens.skipBlank_eq hm.spaced.beforeValue, hm.value_eq]
  rw [readMembers, memberStart_member hm.spaced hg]
  simp only [bind, Except.bind, if_true, readQuoted_of_spells hm.spells, hp.wellNamed.find?_eq hf,
    if_neg hnew, colon_gap hm.spaced.afterName, hread]

theorem readMembers_unknown {m : Member} (hm : m.Unknown l) {gap rest : List Char}
    (hg : IsGap gap) (hr : EndsNumeral rest) (count : Nat) (first : Bool) (seen : List String)
    (y : σ) :
    l.readMembers (count + 1) first seen y (gap ++ (leading first ++ (m.text ++ rest)))
      = l.readMembers count false seen y (m.after ++ rest) := by
  obtain ⟨name, hspells, hname⟩ := hm.spells
  have hfind : l.fields.find? (fun f => f.name.toList == name) = none :=
    List.find?_eq_none.2 fun f hf => by simpa using hname f hf
  rw [readMembers, memberStart_member hm.spaced hg]
  simp only [bind, Except.bind, if_true, readQuoted_of_spells hspells, hfind,
    colon_gap hm.spaced.afterName,
    skipValue_of_wellFormed hm.wellFormed hm.spaced.beforeValue (hr.gap hm.spaced.after)]

/-- The name of a field seen before ends the reading, whatever comes after it. -/
theorem readMembers_repeated (hw : l.WellNamed) {f : Field σ} (hf : f ∈ l.fields)
    {seen : List String} (hseen : f.name ∈ seen) {name gap before : List Char}
    (hname : Spells name f.name.toList) (hg : IsGap gap) (hb : IsGap before) (count : Nat)
    (first : Bool) (y : σ) (rest : List Char) :
    l.readMembers (count + 1) first seen y
        (gap ++ (leading first ++ (before ++ '"' :: (name ++ '"' :: rest))))
      = .error .wrongData := by
  have hstart : skipBlank (before ++ '"' :: (name ++ '"' :: rest)) = '"' :: (name ++ '"' :: rest) :=
    by rw [skipBlank_gap hb, skipBlank_cons (by decide)]
  rw [readMembers, memberStart_leading first hg hstart]
  simp only [bind, Except.bind, if_true, readQuoted_of_spells hname, hw.find?_eq hf, if_pos hseen]

theorem readMembers_close {gap : List Char} (hg : IsGap gap) {seen : List String}
    (hreq : ∀ n ∈ l.required, n ∈ seen) (count : Nat) (first : Bool) (y : σ) (rest : List Char) :
    l.readMembers (count + 1) first seen y (gap ++ closeBrace :: rest) = .ok (y, rest) := by
  have hall : l.required.all (· ∈ seen) = true := by simpa using hreq
  rw [readMembers, memberStart_close first hg]
  simp only [bind, Except.bind, Bool.false_eq_true, if_false, hall, if_true]

/-- Members set the fields that they write. Reading goes on after the last of them. -/
theorem readMembers_run (hp : l.Picks x pick) {names : List String} {ms : List Member}
    (h : l.Gives x names ms) (hnodup : names.Nodup) {seen : List String}
    (hnew : ∀ n ∈ names, n ∉ seen) {gap rest : List Char} (hg : IsGap gap)
    (hr : EndsNumeral rest) (ts : List (List Char)) (first : Bool) :
    ∃ first' gap', IsGap gap' ∧ ∀ count,
      l.readMembers (ms.length + count) first seen (pick seen.toFinset)
          (gap ++ (joined first (ms.map Member.text ++ ts) ++ rest))
        = l.readMembers count first' (names.reverse ++ seen)
            (pick (names.reverse ++ seen).toFinset) (gap' ++ (joined first' ts ++ rest)) := by
  -- the gap after a member is the gap in front of what comes next
  induction h generalizing seen gap first with
  | nil => exact ⟨first, gap, hg, fun count => by simp⟩
  | @field f m names ms hf hm _ ih =>
    obtain ⟨hfirst, hnodup⟩ := List.nodup_cons.1 hnodup
    have hnew' : ∀ n ∈ names, n ∉ f.name :: seen := by
      intro n hn hmem
      rcases List.mem_cons.1 hmem with rfl | hmem
      · exact hfirst hn
      · exact hnew n (List.mem_cons_of_mem _ hn) hmem
    obtain ⟨first', gap', hg', hrun⟩ := ih hnodup hnew' hm.spaced.after false
    refine ⟨first', gap', hg', fun count => ?_⟩
    rw [List.map_cons, List.cons_append, joined_cons, List.length_cons, Nat.succ_add,
      List.append_assoc, List.append_assoc,
      readMembers_field hp hf hm (hnew _ List.mem_cons_self) hg (endsNumeral_joined hr), hrun,
      List.reverse_cons, List.append_assoc, List.singleton_append]
  | @unknown m names ms hm _ ih =>
    obtain ⟨first', gap', hg', hrun⟩ := ih hnodup hnew hm.spaced.after false
    refine ⟨first', gap', hg', fun count => ?_⟩
    rw [List.map_cons, List.cons_append, joined_cons, List.length_cons, Nat.succ_add,
      List.append_assoc, List.append_assoc,
      readMembers_unknown hm hg (endsNumeral_joined hr), hrun]

/-! ## Objects -/

theorem read_run (hp : l.Picks x pick) {names : List String} {ms : List Member}
    (h : l.Gives x names ms) (hnodup : names.Nodup) {gap s rest : List Char} (hg : IsGap gap)
    (hr : EndsNumeral rest) {ts : List (List Char)}
    (hs : skipBlank s = openBrace :: (gap ++ (joined true (ms.map Member.text ++ ts) ++ rest))) :
    ∃ count first gap', IsGap gap' ∧
      l.read s = l.readMembers (count + 1) first names.reverse (pick names.toFinset)
        (gap' ++ (joined first ts ++ rest)) := by
  -- the text is longer than the number of its members, which the reader counts down from
  have hpos : ∀ t ∈ ms.map Member.text, 0 < t.length := by
    intro t ht
    obtain ⟨m, -, rfl⟩ := List.mem_map.1 ht
    exact Nat.zero_lt_of_lt m.length_value_lt
  have hlength : ms.length
      ≤ (gap ++ (joined true (ms.map Member.text ++ ts) ++ rest)).length := by
    have hle := length_le_length_joined hpos true ts
    rw [List.length_map] at hle
    simp only [List.length_append] at hle ⊢
    omega
  have hnew : ∀ n ∈ names, n ∉ ([] : List String) := fun _ _ => List.not_mem_nil
  obtain ⟨first, gap', hg', hrun⟩ := readMembers_run hp h hnodup hnew hg hr ts true
  simp only [List.append_nil, List.toFinset_reverse, List.toFinset_nil, hp.blank] at hrun
  generalize gap ++ (joined true (ms.map Member.text ++ ts) ++ rest) = u at hs hrun hlength
  obtain ⟨count, hcount⟩ : ∃ count, u.length + 1 = ms.length + (count + 1) :=
    ⟨u.length - ms.length, by omega⟩
  refine ⟨count, first, gap', hg', ?_⟩
  rw [read, hs]
  dsimp only
  rw [if_pos rfl, hcount, hrun]

/-- An object that gives fields of a record is read as the blank record with these fields. -/
theorem read_object (hp : l.Picks x pick) {names : List String} {ms : List Member}
    (h : l.Gives x names ms) (hnodup : names.Nodup) (hreq : ∀ n ∈ l.required, n ∈ names)
    {gap s rest : List Char} (hg : IsGap gap)
    (hs : skipBlank s = objectText gap (ms.map Member.text) ++ rest) :
    l.read s = .ok (pick names.toFinset, rest) := by
  have hs' : skipBlank s = openBrace :: (gap ++ (joined true (ms.map Member.text ++ [])
      ++ closeBrace :: rest)) := by
    simpa [objectText, joined] using hs
  obtain ⟨count, first, gap', hg', hread⟩ :=
    read_run hp h hnodup hg (endsNumeral_cons (by decide) rest) hs'
  rw [hread, joined_nil, List.nil_append]
  exact readMembers_close hg' (fun n hn => List.mem_reverse.2 (hreq n hn)) count first _ rest

theorem read_repeated (hp : l.Picks x pick) {names : List String} {ms : List Member}
    (h : l.Gives x names ms) (hnodup : names.Nodup) {f : Field σ} (hf : f ∈ l.fields)
    (hseen : f.name ∈ names) {name gap before s rest : List Char}
    (hname : Spells name f.name.toList) (hg : IsGap gap) (hb : IsGap before)
    (hs : skipBlank s = openBrace :: (gap ++ commaSeparated (ms.map Member.text
      ++ [before ++ '"' :: (name ++ '"' :: rest)]))) :
    l.read s = .error .wrongData := by
  have hs' : skipBlank s = openBrace :: (gap ++ (joined true (ms.map Member.text
      ++ [before ++ '"' :: (name ++ '"' :: rest)]) ++ [])) := by
    simpa [joined] using hs
  obtain ⟨count, first, gap', hg', hread⟩ := read_run hp h hnodup hg endsNumeral_nil hs'
  rw [hread, List.append_nil, joined_cons, joined_nil, List.append_nil]
  exact readMembers_repeated hp.wellNamed hf (List.mem_reverse.2 hseen) hname hg' hb count first _
    rest

/-- How objects with some of the fields of `x` are read: `pick S` stands for the default record with
the fields in `S` taken from `x`. -/
structure ReadsPartial (l : Layout σ) (x : σ) (pick : Finset String → σ) : Prop where
  /-- Neither the order of the members nor the unknown ones among them matter. -/
  object : ∀ {names ms lead gap trail}, l.Gives x names ms → names.Nodup → IsGap lead →
    IsGap gap → IsGap trail →
    l.codec.ofText (String.ofList (lead ++ (objectText gap (ms.map Member.text) ++ trail)))
      = .ok (pick names.toFinset)
  /-- The name of a field that is already given is refused, whatever stands behind it. -/
  repeated : ∀ {names ms f name lead gap before} (rest : List Char), l.Gives x names ms →
    names.Nodup → f ∈ l.fields → f.name ∈ names → Spells name f.name.toList → IsGap lead →
    IsGap gap → IsGap before →
    l.codec.ofText (String.ofList (lead ++ openBrace :: (gap ++ commaSeparated
      (ms.map Member.text ++ [before ++ '"' :: (name ++ '"' :: rest)]))))
      = .error .wrongData

/-- A layout without required fields reads objects that give any of its fields. -/
theorem Picks.readsPartial (hp : l.Picks x pick) (hreq : l.required = []) :
    l.ReadsPartial x pick where
  object {names ms lead gap trail} h hnodup hl hg ht := by
    have hs : skipBlank (lead ++ (objectText gap (ms.map Member.text) ++ trail))
        = objectText gap (ms.map Member.text) ++ trail := by
      rw [skipBlank_gap hl]
      exact skipBlank_cons (by decide) _
    have hread : l.codec.read (lead ++ (objectText gap (ms.map Member.text) ++ trail))
        = .ok (pick names.toFinset, trail) :=
      read_object hp h hnodup (fun n hn => absurd (hreq ▸ hn) List.not_mem_nil) hg hs
    rw [Codec.ofText, String.toList_ofList, hread]
    exact if_pos (skipBlank_of_gap ht)
  repeated {names ms f name lead gap before} rest h hnodup hf hmem hname hl hg hb := by
    have hs : skipBlank (lead ++ openBrace :: (gap ++ commaSeparated
        (ms.map Member.text ++ [before ++ '"' :: (name ++ '"' :: rest)])))
        = openBrace :: (gap ++ commaSeparated
          (ms.map Member.text ++ [before ++ '"' :: (name ++ '"' :: rest)])) := by
      rw [skipBlank_gap hl]
      exact skipBlank_cons (by decide) _
    have hread := read_repeated hp h hnodup hf hmem hname hg hb hs
    rw [Codec.ofText, String.toList_ofList]
    exact congrArg (· >>= fun p => if skipBlank p.2 = [] then .ok p.1 else .error .malformed) hread

/-! ## Written records -/

def member (x : σ) (f : Field σ) : Member where
  name := f.name.toList
  value := f.write x

theorem write_eq_objectText (l : Layout σ) (x : σ) :
    l.write x = objectText [] ((l.fields.map (member x)).map Member.text) := by
  have htext : writeField x = Member.text ∘ member x := by
    funext f
    simp [writeField, member, Member.text, Member.tail]
  simp [write, objectText, htext]

theorem gives_fields (hw : l.WellNamed) {fs : List (Field σ)} (hfs : ∀ f ∈ fs, f ∈ l.fields) :
    l.Gives x (fs.map Field.name) (fs.map (member x)) := by
  induction fs with
  | nil => exact .nil
  | cons f fs ih =>
    have hf := hfs f List.mem_cons_self
    have hm : (member x f).Writes f x :=
      ⟨.of_plain (hw.plain f hf), rfl, ⟨isGap_nil, isGap_nil, isGap_nil, isGap_nil⟩⟩
    exact .field hf hm (ih fun g hg => hfs g (List.mem_cons_of_mem f hg))

theorem Picks.readsBack (hp : l.Picks x pick) : l.codec.ReadsBack x where
  opens := ⟨openBrace, _, rfl, by decide, by decide⟩
  read s rest hs _ := by
    have hobject : skipBlank s
        = objectText [] ((l.fields.map (member x)).map Member.text) ++ rest := by
      rw [← write_eq_objectText]
      exact hs
    have hread := read_object hp (gives_fields hp.wellNamed fun _ h => h) hp.wellNamed.nodup
      hp.wellNamed.required isGap_nil hobject
    rwa [hp.all] at hread

/-- A record is not written like `null`. -/
theorem readsBack_option {o : Option σ} (h : ∀ x ∈ o, l.codec.ReadsBack x) :
    l.codec.option.ReadsBack o :=
  Codec.readsBack_option h fun _ _ hn => absurd (Option.some.inj hn) (by decide)

end Layout

end BranchPrediction.Json
