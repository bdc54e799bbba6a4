/-!
# Powers of two and ten

The scales of binary and decimal numbers. A binary number is scaled by powers of two and a decimal one by
powers of ten, and every rounding in this library compares the two kinds of scale.
-/

namespace Scriptlet.Number

def twoTo (exponent : Nat) : Nat := Nat.pow 2 exponent

def tenTo (exponent : Nat) : Nat := Nat.pow 10 exponent

theorem twoTo_zero : twoTo 0 = 1 := rfl

theorem twoTo_succ (n : Nat) : twoTo (n + 1) = twoTo n * 2 := rfl

theorem tenTo_zero : tenTo 0 = 1 := rfl

theorem tenTo_succ (n : Nat) : tenTo (n + 1) = tenTo n * 10 := rfl

end Scriptlet.Number
