import BranchPrediction.Json.Codec

/-!
# The grammar of JSON texts

Which texts are gaps, strings, numbers and values, said without the readers. `WellFormed` is the
grammar of values: blanks may stand around each part, a string may escape any character, and a
number may have any size. `Spells` says which characters the inside of a string stands for.
-/

-- what holds of all members of a list is decided member by member, whatever else is imported
attribute [instance (high)] List.decidableBAll

namespace BranchPrediction.Json

def IsGap (s : List Char) : Prop :=
  ∀ c ∈ s, isBlank c = true

instance (s : List Char) : Decidable (IsGap s) :=
  inferInstanceAs (Decidable (∀ c ∈ s, isBlank c = true))

/-! ## Strings -/

/-- The characters that may follow a backslash, apart from `u`. -/
def escapeLetters : List Char :=
  ['"', '\\', '/', 'b', 'f', 'n', 'r', 't']

def hexDigits : List Char :=
  "0123456789abcdefABCDEF".toList

/-- The four digits of a `\u` escape. -/
structure IsUnit (ds : List Char) : Prop where
  length : ds.length = 4
  hex : ∀ c ∈ ds, c ∈ hexDigits

def hexValue (ds : List Char) : Nat :=
  ds.foldl (fun x c => 16 * x + (hexDigit? c).getD 0) 0

structure IsPlain (c : Char) : Prop where
  not_quote : c ≠ '"'
  not_backslash : c ≠ '\\'
  not_control : 0x20 ≤ c.toNat

instance (c : Char) : Decidable (IsPlain c) :=
  decidable_of_iff (c ≠ '"' ∧ c ≠ '\\' ∧ 0x20 ≤ c.toNat)
    ⟨fun ⟨hq, hb, hc⟩ => ⟨hq, hb, hc⟩, fun ⟨hq, hb, hc⟩ => ⟨hq, hb, hc⟩⟩

/-- The insides of strings. A surrogate needs no partner. -/
inductive QuotedText : List Char → Prop where
  | nil : QuotedText []
  | plain {c : Char} {s : List Char} : IsPlain c → QuotedText s → QuotedText (c :: s)
  | escape {c : Char} {s : List Char} :
      c ∈ escapeLetters → QuotedText s → QuotedText ('\\' :: c :: s)
  | unit {ds s : List Char} : IsUnit ds → QuotedText s → QuotedText ('\\' :: 'u' :: ds ++ s)

/-- Which characters the inside of a string stands for. -/
inductive Spells : List Char → List Char → Prop where
  | nil : Spells [] []
  | plain {c : Char} {s cs : List Char} : IsPlain c → Spells s cs → Spells (c :: s) (c :: cs)
  | escape {c d : Char} {s cs : List Char} :
      simpleEscape? c = some d → Spells s cs → Spells ('\\' :: c :: s) (d :: cs)
  | unit {ds s cs : List Char} :
      IsUnit ds → isLeading (hexValue ds) = false → isTrailing (hexValue ds) = false →
      Spells s cs → Spells ('\\' :: 'u' :: ds ++ s) (Char.ofNat (hexValue ds) :: cs)
  | pair {lead trail s cs : List Char} :
      IsUnit lead → IsUnit trail → isLeading (hexValue lead) = true →
      isTrailing (hexValue trail) = true → Spells s cs →
      Spells ('\\' :: 'u' :: lead ++ '\\' :: 'u' :: trail ++ s)
        (pairedChar (hexValue lead) (hexValue trail) :: cs)

theorem Spells.of_plain {s : List Char} (h : ∀ c ∈ s, IsPlain c) : Spells s s := by
  induction s with
  | nil => exact .nil
  | cons c s ih =>
    exact .plain (h c List.mem_cons_self) (ih fun d hd => h d (List.mem_cons_of_mem c hd))

/-! ## Numbers -/

structure IsDigits (ds : List Char) : Prop where
  ne_nil : ds ≠ []
  digit : ∀ c ∈ ds, c.isDigit = true

namespace Numeral

def fractionText : Option (List Char) → List Char
  | none => []
  | some ds => '.' :: ds

/-- A sign of an exponent; a plus need not be written. -/
inductive SignText : Bool → List Char → Prop where
  | minus : SignText true ['-']
  | plus : SignText false ['+']
  | absent : SignText false []

inductive ExponentText : Option (Bool × List Char) → List Char → Prop where
  | absent : ExponentText none []
  | present {letter : Char} {negative : Bool} {sign ds : List Char} :
      letter = 'e' ∨ letter = 'E' → SignText negative sign → IsDigits ds →
      ExponentText (some (negative, ds)) (letter :: sign ++ ds)

def minusText (negative : Bool) : List Char :=
  if negative then ['-'] else []

/-- How a numeral is written. The whole part begins with a zero only if it is one. -/
inductive Written : Numeral → List Char → Prop where
  | mk {negative : Bool} {whole : List Char} {fraction : Option (List Char)}
      {exponent : Option (Bool × List Char)} {text : List Char} :
      IsDigits whole → (whole.head? = some '0' → whole.length = 1) →
      (∀ ds ∈ fraction, IsDigits ds) → ExponentText exponent text →
      Written ⟨negative, whole, fraction, exponent⟩
        (minusText negative ++ whole ++ fractionText fraction ++ text)

end Numeral

def EndsNumeral (s : List Char) : Prop :=
  ∀ c ∈ s.head?, c.isDigit = false ∧ c ≠ '.' ∧ c ≠ 'e' ∧ c ≠ 'E'

/-! ## Values -/

/-- A member of an object as it is written: the inside of the name, the value, and the gaps. -/
structure Member where
  name : List Char
  value : List Char
  before : List Char := []
  afterName : List Char := []
  beforeValue : List Char := []
  after : List Char := []
  deriving DecidableEq, Repr

namespace Member

/-- The text after the quote that opens the name. -/
def tail (m : Member) : List Char :=
  m.name ++ '"' :: m.afterName ++ ':' :: m.beforeValue ++ m.value ++ m.after

def text (m : Member) : List Char :=
  m.before ++ '"' :: m.tail

theorem length_value_lt (m : Member) : m.value.length < m.text.length := by
  simp only [text, tail, List.length_append, List.length_cons]
  omega

structure Spaced (m : Member) : Prop where
  before : IsGap m.before
  afterName : IsGap m.afterName
  beforeValue : IsGap m.beforeValue
  after : IsGap m.after

end Member

/-- The kinds of text in the grammar: values, and what stands inside of a list or an object that is
not empty. -/
inductive Part where
  | value
  | elements
  | members
  deriving DecidableEq, Repr

def constants : List (List Char) :=
  ["null".toList, "true".toList, "false".toList]

/-- The texts of each kind. -/
inductive WellFormed : Part → List Char → Prop where
  | constant {t : List Char} : t ∈ constants → WellFormed .value t
  | number {n : Numeral} {t : List Char} : n.Written t → WellFormed .value t
  | string {s : List Char} : QuotedText s → WellFormed .value ('"' :: s ++ ['"'])
  | emptyList {gap : List Char} : IsGap gap → WellFormed .value ('[' :: gap ++ [']'])
  | list {t : List Char} : WellFormed .elements t → WellFormed .value ('[' :: t ++ [']'])
  | emptyObject {gap : List Char} :
      IsGap gap → WellFormed .value (openBrace :: gap ++ [closeBrace])
  | object {t : List Char} :
      WellFormed .members t → WellFormed .value (openBrace :: t ++ [closeBrace])
  | element {before v after : List Char} :
      IsGap before → WellFormed .value v → IsGap after →
      WellFormed .elements (before ++ v ++ after)
  | elements {before v after t : List Char} :
      IsGap before → WellFormed .value v → IsGap after → WellFormed .elements t →
      WellFormed .elements (before ++ v ++ after ++ ',' :: t)
  | member {m : Member} :
      m.Spaced → QuotedText m.name → WellFormed .value m.value → WellFormed .members m.text
  | members {m : Member} {t : List Char} :
      m.Spaced → QuotedText m.name → WellFormed .value m.value → WellFormed .members t →
      WellFormed .members (m.text ++ ',' :: t)

end BranchPrediction.Json
