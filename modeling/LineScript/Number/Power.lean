/-
# Powers

Powers of the two bases that numbers are written and stored in.
-/

namespace LineScript.Number

/-- Two to a power. -/
def twoTo (n : Nat) : Nat := Nat.pow 2 n

/-- Ten to a power. -/
def tenTo (n : Nat) : Nat := Nat.pow 10 n

/-- Whether an integer fits in 64 signed bits. -/
def fits64 (n : Int) : Bool := -(twoTo 63 : Int) ≤ n && n < twoTo 63

end LineScript.Number
