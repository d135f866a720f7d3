/-!
# Branch outcomes

A conditional branch is taken or not taken. Outcomes have one-letter names, `t` and `n`, a
direction (`+1` and `-1`) that counters move in, and an order in which `notTaken` comes first.
-/

namespace BranchPrediction

/-- The direction of a conditional branch. -/
inductive Outcome where
  | notTaken
  | taken
  deriving DecidableEq, Repr, Inhabited

namespace Outcome

def ofBool (b : Bool) : Outcome :=
  if b then taken else notTaken

def toBool : Outcome → Bool
  | notTaken => false
  | taken => true

/-- The other direction. -/
def not : Outcome → Outcome
  | notTaken => taken
  | taken => notTaken

/-- The step that a counter takes toward this outcome. -/
def sign : Outcome → Int
  | notTaken => -1
  | taken => 1

def letter : Outcome → Char
  | notTaken => 'n'
  | taken => 't'

/-- Letters in either case name an outcome. -/
def ofLetter? (c : Char) : Option Outcome :=
  if c = 't' ∨ c = 'T' then some taken
  else if c = 'n' ∨ c = 'N' then some notTaken
  else none

/-- The outcomes named by a text, whose other characters are skipped. -/
def listOfString (s : String) : List Outcome :=
  s.toList.filterMap ofLetter?

def listToString (os : List Outcome) : String :=
  String.ofList (os.map letter)

/-- The order of outcomes, `notTaken` first. -/
def le (a b : Outcome) : Bool :=
  !a.toBool || b.toBool

@[simp] theorem toBool_ofBool (b : Bool) : (ofBool b).toBool = b := by
  cases b <;> rfl

@[simp] theorem ofBool_toBool (o : Outcome) : ofBool o.toBool = o := by
  cases o <;> rfl

@[simp] theorem not_not (o : Outcome) : o.not.not = o := by
  cases o <;> rfl

@[simp] theorem ofLetter?_letter (o : Outcome) : ofLetter? o.letter = some o := by
  cases o <;> rfl

/-- A text of outcome letters reads back as the outcomes. -/
theorem listOfString_listToString (os : List Outcome) :
    listOfString (listToString os) = os := by
  simp only [listOfString, listToString, String.toList_ofList]
  induction os with
  | nil => rfl
  | cons o os ih => simp [ih]

end Outcome

end BranchPrediction
