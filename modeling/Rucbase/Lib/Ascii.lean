import Rucbase.Lib.Bytes

/-!
# Classes of ASCII characters
-/

namespace Rucbase.Lib

/-- The byte of an ASCII character. -/
def byte (c : Char) : UInt8 := UInt8.ofNat c.toNat

/-- `[a-zA-Z]`. -/
def isAlpha (c : UInt8) : Bool := (97 ≤ c && c ≤ 122) || (65 ≤ c && c ≤ 90)

/-- `[0-9]`. -/
def isDigit (c : UInt8) : Bool := 48 ≤ c && c ≤ 57

/-- What an identifier consists of behind its first letter. -/
def isIdentChar (c : UInt8) : Bool := c == 95 || isAlpha c || isDigit c

/-- A letter in lower case; other characters stay. -/
def toLower (c : UInt8) : UInt8 := if 65 ≤ c && c ≤ 90 then c + 32 else c

/-- `{alpha}(_|{alpha}|{digit})*`. -/
def IsIdentifier : Bytes → Prop
  | [] => False
  | c :: cs => isAlpha c = true ∧ ∀ d ∈ cs, isIdentChar d = true

instance : DecidablePred IsIdentifier
  | [] => isFalse id
  | c :: cs =>
    haveI := List.decidableBAll (fun d => isIdentChar d = true) cs
    inferInstanceAs (Decidable (isAlpha c = true ∧ ∀ d ∈ cs, isIdentChar d = true))

theorem isIdentChar_of_isAlpha {c : UInt8} (h : isAlpha c = true) : isIdentChar c = true := by
  simp [isIdentChar, h]

theorem isIdentChar_of_isDigit {c : UInt8} (h : isDigit c = true) : isIdentChar c = true := by
  simp [isIdentChar, h]

/-- The characters of an identifier. -/
theorem IsIdentifier.isIdentChar {s : Bytes} (h : IsIdentifier s) {c : UInt8} (hc : c ∈ s) :
    isIdentChar c = true := by
  match s, h with
  | first :: rest, ⟨hfirst, hrest⟩ =>
    rcases List.mem_cons.mp hc with rfl | hc
    · exact isIdentChar_of_isAlpha hfirst
    · exact hrest c hc

end Rucbase.Lib
