/-!
Case folding of the 26 ASCII letters. Other letters are left alone, so two texts that differ in
the case of an accented letter stay different.
-/

namespace DefLoad.Text

def lower (s : String) : String := String.ofList (s.toList.map Char.toLower)

def upper (s : String) : String := String.ofList (s.toList.map Char.toUpper)

def sameIgnoringCase (a b : String) : Bool := lower a == lower b

theorem sameIgnoringCase_refl (a : String) : sameIgnoringCase a a := by simp [sameIgnoringCase]

theorem sameIgnoringCase_comm (a b : String) : sameIgnoringCase a b = sameIgnoringCase b a := by
  simp [sameIgnoringCase, Bool.beq_comm]

def isDecimalDigit (c : Char) : Bool := '0' ≤ c && c ≤ '9'

theorem isDecimalDigit_of_isDigit {c : Char} (h : c.isDigit = true) : isDecimalDigit c = true := by
  simp only [Char.isDigit, Bool.and_eq_true, decide_eq_true_eq] at h
  simp only [isDecimalDigit, Bool.and_eq_true, decide_eq_true_eq]
  exact h

def digitValue (c : Char) : Nat := c.toNat - '0'.toNat

end DefLoad.Text
