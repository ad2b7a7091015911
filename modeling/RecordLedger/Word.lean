/-!
Bounds of 64-bit integers and the two readings of one 64-bit word. Rows hold signed numbers and
callers count with unsigned ones; a number that fits both reads the same either way.
-/

namespace RecordLedger.Word

def minSigned : Int := -9223372036854775808
def maxSigned : Int := 9223372036854775807
def maxUnsigned : Nat := 18446744073709551615

def fitsSigned (n : Int) : Bool := decide (minSigned ≤ n) && decide (n ≤ maxSigned)

def fitsUnsigned (n : Int) : Bool := decide (0 ≤ n) && decide (n ≤ maxUnsigned)

/-- The unsigned reading of a signed word: negative numbers wrap around. -/
def unsigned (n : Int) : Nat := (n % 18446744073709551616).toNat

/-- The signed reading of an unsigned word: the upper half is negative. -/
def signed (n : Nat) : Int :=
  let w : Int := n % 18446744073709551616
  if w ≤ maxSigned then w else w - 18446744073709551616

theorem unsigned_of_nonneg {n : Int} (lower : 0 ≤ n) (upper : n ≤ maxSigned) :
    (unsigned n : Int) = n := by
  simp only [unsigned, maxSigned] at *; omega

theorem signed_of_le {n : Nat} (upper : (n : Int) ≤ maxSigned) : signed n = n := by
  simp only [signed, maxSigned] at *; omega

end RecordLedger.Word
