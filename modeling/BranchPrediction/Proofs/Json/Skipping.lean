import BranchPrediction.Proofs.Json.Lexemes

/-!
# Passing over well-formed values

A value that the grammar allows is passed over whole, and nothing after it. The proof is an
induction on the grammar with one statement for each kind of text (`Skipped`); the bound on the
depth of the recursion is met because each level of it consumes text. Main statement:
`skipValue_of_wellFormed`.
-/

namespace BranchPrediction.Json

theorem Numeral.Written.head {n : Numeral} {t : List Char} (h : n.Written t) :
    ∃ c u, t = c :: u ∧ (c = '-' ∨ c.isDigit = true) := by
  obtain @⟨negative, whole, _, _, _, hwhole, _, _, _⟩ := h
  obtain ⟨c, u, rfl⟩ := List.exists_cons_of_ne_nil hwhole.ne_nil
  cases negative with
  | true => exact ⟨'-', _, rfl, .inl rfl⟩
  | false => exact ⟨c, _, rfl, .inr (hwhole.digit c List.mem_cons_self)⟩

theorem numberHead_ne {c d : Char} (h : c = '-' ∨ c.isDigit = true)
    (hd : d ∈ [' ', '\n', '\t', '\r', ']', '"', '[', openBrace, 'n', 't', 'f']) : c ≠ d := by
  have hall : ∀ d ∈ [' ', '\n', '\t', '\r', ']', '"', '[', openBrace, 'n', 't', 'f'],
      d ≠ '-' ∧ d.isDigit = false := by decide
  rintro rfl
  obtain ⟨hminus, hdigit⟩ := hall c hd
  rcases h with h | h
  · exact hminus h
  · rw [hdigit] at h
    cases h

theorem opens_of_numberHead {c : Char} (h : c = '-' ∨ c.isDigit = true) (u : List Char) :
    Opens (c :: u) := by
  refine ⟨c, u, rfl, ?_, numberHead_ne h (by decide)⟩
  have h1 : c ≠ ' ' := numberHead_ne h (by decide)
  have h2 : c ≠ '\n' := numberHead_ne h (by decide)
  have h3 : c ≠ '\t' := numberHead_ne h (by decide)
  have h4 : c ≠ '\r' := numberHead_ne h (by decide)
  simp [isBlank, h1, h2, h3, h4]

theorem Numeral.Written.opens {n : Numeral} {t : List Char} (h : n.Written t) : Opens t := by
  obtain ⟨c, u, rfl, hc⟩ := h.head
  exact opens_of_numberHead hc u

theorem WellFormed.opens {t : List Char} (h : WellFormed .value t) : Opens t := by
  cases h with
  | constant ht =>
    have hall : ∀ t ∈ constants, ∃ c u, t = c :: u ∧ isBlank c = false ∧ c ≠ ']' := by
      simp [constants, isBlank]
    exact hall t ht
  | number hn => exact hn.opens
  | string _ => exact ⟨'"', _, rfl, by decide, by decide⟩
  | emptyList _ => exact ⟨'[', _, rfl, by decide, by decide⟩
  | list _ => exact ⟨'[', _, rfl, by decide, by decide⟩
  | emptyObject _ => exact ⟨openBrace, _, rfl, by decide, by decide⟩
  | object _ => exact ⟨openBrace, _, rfl, by decide, by decide⟩

theorem Opens.length_pos {t : List Char} (h : Opens t) : 0 < t.length := by
  obtain ⟨c, u, rfl, -⟩ := h
  exact Nat.succ_pos _

/-- A text of each kind is passed over, if the depth is enough for its length. -/
def Skipped : Part → List Char → Prop
  | .value, t => ∀ depth s rest, skipBlank s = t ++ rest → EndsNumeral rest →
      2 * t.length ≤ depth → skipValueWithin depth s = .ok rest
  | .elements, t => ∀ depth first gap rest, IsGap gap → 2 * t.length + 1 ≤ depth →
      skipElementsWithin depth first (gap ++ (leading first ++ (t ++ ']' :: rest))) = .ok rest
  | .members, t => ∀ depth first gap rest, IsGap gap → 2 * t.length + 1 ≤ depth →
      skipMembersWithin depth first (gap ++ (leading first ++ (t ++ closeBrace :: rest)))
        = .ok rest

theorem skipValueWithin_succ (depth : Nat) {s : List Char} {c : Char} {u : List Char}
    (hs : skipBlank s = c :: u) :
    skipValueWithin (depth + 1) s
      = if c = '"' then skipQuoted u
        else if c = '[' then skipElementsWithin depth true u
        else if c = openBrace then skipMembersWithin depth true u
        else if c = 'n' then literal ['u', 'l', 'l'] u
        else if c = 't' then literal ['r', 'u', 'e'] u
        else if c = 'f' then literal ['a', 'l', 's', 'e'] u
        else if c = '-' || c.isDigit then (Numeral.read .malformed (c :: u)).map Prod.snd
        else .error .malformed := by
  rw [skipValueWithin, hs]

theorem skipElementsWithin_close {gap : List Char} (depth : Nat) (first : Bool) (hg : IsGap gap)
    (rest : List Char) : skipElementsWithin (depth + 1) first (gap ++ ']' :: rest) = .ok rest := by
  rw [skipElementsWithin, elementStart_close first hg]
  exact listEnd_close hg rest

theorem skipMembersWithin_close {gap : List Char} (depth : Nat) (first : Bool) (hg : IsGap gap)
    (rest : List Char) :
    skipMembersWithin (depth + 1) first (gap ++ closeBrace :: rest) = .ok rest := by
  rw [skipMembersWithin, memberStart_close first hg]
  rfl

theorem skipElementsWithin_element {depth : Nat} {first : Bool} {gap before v rest : List Char}
    (hv : Skipped .value v) (ho : Opens v) (hg : IsGap gap) (hb : IsGap before)
    (hr : EndsNumeral rest) (hd : 2 * v.length ≤ depth) :
    skipElementsWithin (depth + 1) first (gap ++ (leading first ++ (before ++ (v ++ rest))))
      = skipElementsWithin depth false rest := by
  have hs := ho.skipBlank_eq hb rest
  obtain ⟨c, u, hvu, hc, hc'⟩ := ho
  have hcons : skipBlank (before ++ (v ++ rest)) = c :: (u ++ rest) := by
    rw [hs, hvu, List.cons_append]
  have hskip : skipValueWithin depth (c :: (u ++ rest)) = .ok rest :=
    hv depth _ rest (by rw [skipBlank_cons hc, hvu, List.cons_append]) hr hd
  rw [skipElementsWithin, elementStart_leading first hg hcons hc']
  exact congrArg (· >>= skipElementsWithin depth false) hskip

theorem skipMembersWithin_member {depth : Nat} {first : Bool} {gap rest : List Char} {m : Member}
    (hv : Skipped .value m.value) (ho : Opens m.value) (hm : m.Spaced) (hn : QuotedText m.name)
    (hg : IsGap gap) (hr : EndsNumeral rest) (hd : 2 * m.value.length ≤ depth) :
    skipMembersWithin (depth + 1) first (gap ++ (leading first ++ (m.text ++ rest)))
      = skipMembersWithin depth false (m.after ++ rest) := by
  have hstart : skipBlank (m.text ++ rest) = '"' :: (m.tail ++ rest) := by
    rw [Member.text, List.append_assoc, skipBlank_gap hm.before]
    rfl
  have htail : m.tail ++ rest = m.name ++ '"' :: (m.afterName ++ ':' :: (m.beforeValue
      ++ (m.value ++ (m.after ++ rest)))) := by
    simp [Member.tail]
  have hskip : skipValueWithin depth (m.beforeValue ++ (m.value ++ (m.after ++ rest)))
      = .ok (m.after ++ rest) :=
    hv depth _ _ (ho.skipBlank_eq hm.beforeValue _) (hr.gap hm.after) hd
  rw [skipMembersWithin, memberStart_leading first hg hstart]
  simp only [bind, Except.bind, if_true]
  rw [htail, skipQuoted_of_quotedText hn]
  dsimp only
  rw [colon_gap hm.afterName]
  dsimp only
  rw [hskip]

theorem skipped_constant {t : List Char} (h : t ∈ constants) : Skipped .value t := by
  intro depth s rest hs _ hd
  cases depth with
  | zero =>
    have hlength : ∀ t ∈ constants, 0 < t.length := by decide
    have := hlength t h
    omega
  | succ depth =>
    simp only [constants, List.mem_cons, List.not_mem_nil, or_false] at h
    rcases h with rfl | rfl | rfl
    · rw [skipValueWithin_succ depth hs]
      exact literal_append ['u', 'l', 'l'] rest
    · rw [skipValueWithin_succ depth hs]
      exact literal_append ['r', 'u', 'e'] rest
    · rw [skipValueWithin_succ depth hs]
      exact literal_append ['a', 'l', 's', 'e'] rest

theorem skipped_number {n : Numeral} {t : List Char} (h : n.Written t) : Skipped .value t := by
  intro depth s rest hs hr hd
  have hread := Numeral.read_of_written .malformed h hr
  obtain ⟨c, u, rfl, hc⟩ := h.head
  cases depth with
  | zero => simp at hd
  | succ depth =>
    have hcond : (c = '-' || c.isDigit) = true := by
      simpa using hc
    rw [skipValueWithin_succ depth hs, if_neg (numberHead_ne hc (by decide)),
      if_neg (numberHead_ne hc (by decide)), if_neg (numberHead_ne hc (by decide)),
      if_neg (numberHead_ne hc (by decide)), if_neg (numberHead_ne hc (by decide)),
      if_neg (numberHead_ne hc (by decide)), if_pos hcond]
    exact congrArg (Except.map Prod.snd) hread

/-- A value between brackets is passed over if what stands between them is. -/
theorem skipped_bracketed {opening closing : Char} {t : List Char}
    (hstep : ∀ depth rest s, skipBlank s = opening :: (t ++ closing :: rest) →
      2 * t.length + 1 ≤ depth → skipValueWithin (depth + 1) s = .ok rest) :
    Skipped .value (opening :: t ++ [closing]) := by
  intro depth s rest hs _ hd
  have hlength : (opening :: t ++ [closing]).length = t.length + 2 := by simp
  rw [hlength] at hd
  obtain ⟨depth, rfl⟩ : ∃ d, depth = d + 1 := ⟨depth - 1, by omega⟩
  exact hstep depth rest s (by simpa using hs) (by omega)

theorem WellFormed.skipped {part : Part} {t : List Char} (h : WellFormed part t) :
    Skipped part t := by
  induction h with
  | constant ht => exact skipped_constant ht
  | number hn => exact skipped_number hn
  | @string t ht =>
    refine skipped_bracketed fun depth rest s hs _ => ?_
    rw [skipValueWithin_succ depth hs]
    exact skipQuoted_of_quotedText ht rest
  | @emptyList gap hgap =>
    refine skipped_bracketed fun depth rest s hs hd => ?_
    obtain ⟨depth, rfl⟩ : ∃ d, depth = d + 1 := ⟨depth - 1, by omega⟩
    rw [skipValueWithin_succ _ hs]
    exact skipElementsWithin_close depth true hgap rest
  | @list t _ ih =>
    refine skipped_bracketed fun depth rest s hs hd => ?_
    rw [skipValueWithin_succ depth hs]
    exact ih depth true [] rest isGap_nil hd
  | @emptyObject gap hgap =>
    refine skipped_bracketed fun depth rest s hs hd => ?_
    obtain ⟨depth, rfl⟩ : ∃ d, depth = d + 1 := ⟨depth - 1, by omega⟩
    rw [skipValueWithin_succ _ hs]
    exact skipMembersWithin_close depth true hgap rest
  | @object t _ ih =>
    refine skipped_bracketed fun depth rest s hs hd => ?_
    rw [skipValueWithin_succ depth hs]
    exact ih depth true [] rest isGap_nil hd
  | @element before v after hbefore hv hafter ih =>
    intro depth first gap rest hgap hd
    simp only [List.length_append] at hd
    have hpos : 0 < v.length := hv.opens.length_pos
    -- one level for the last element, one for the bracket after it
    obtain ⟨depth, rfl⟩ : ∃ d, depth = d + 1 + 1 := ⟨depth - 2, by omega⟩
    have hr : EndsNumeral (']' :: rest) := endsNumeral_cons (by decide) rest
    rw [List.append_assoc, List.append_assoc, skipElementsWithin_element ih hv.opens hgap hbefore
      (hr.gap hafter) (by omega)]
    exact skipElementsWithin_close depth false hafter rest
  | @elements before v after t hbefore hv hafter _ ihv iht =>
    intro depth first gap rest hgap hd
    simp only [List.length_append, List.length_cons] at hd
    obtain ⟨depth, rfl⟩ : ∃ d, depth = d + 1 := ⟨depth - 1, by omega⟩
    have hr : EndsNumeral (',' :: (t ++ ']' :: rest)) := endsNumeral_cons (by decide) _
    rw [List.append_assoc, List.append_assoc, List.append_assoc, List.cons_append,
      skipElementsWithin_element ihv hv.opens hgap hbefore (hr.gap hafter) (by omega)]
    exact iht depth false after rest hafter (by omega)
  | @member m hm hn hv ih =>
    intro depth first gap rest hgap hd
    have hlength := m.length_value_lt
    have hpos : 0 < m.value.length := hv.opens.length_pos
    obtain ⟨depth, rfl⟩ : ∃ d, depth = d + 1 + 1 := ⟨depth - 2, by omega⟩
    rw [skipMembersWithin_member ih hv.opens hm hn hgap (endsNumeral_cons (by decide) rest)
      (by omega)]
    exact skipMembersWithin_close depth false hm.after rest
  | @members m t hm hn hv _ ihv iht =>
    intro depth first gap rest hgap hd
    have hlength := m.length_value_lt
    simp only [List.length_append, List.length_cons] at hd
    obtain ⟨depth, rfl⟩ : ∃ d, depth = d + 1 := ⟨depth - 1, by omega⟩
    rw [List.append_assoc, List.cons_append, skipMembersWithin_member ihv hv.opens hm hn hgap
      (endsNumeral_cons (by decide) _) (by omega)]
    exact iht depth false m.after rest hm.after (by omega)

/-- A well-formed value is passed over, with the blanks in front of it and nothing after it. -/
theorem skipValue_of_wellFormed {t gap rest : List Char} (h : WellFormed .value t)
    (hg : IsGap gap) (hr : EndsNumeral rest) : skipValue (gap ++ (t ++ rest)) = .ok rest := by
  refine h.skipped _ _ rest (h.opens.skipBlank_eq hg rest) hr ?_
  simp only [List.length_append]
  omega

end BranchPrediction.Json
