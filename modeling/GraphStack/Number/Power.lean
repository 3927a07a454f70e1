/-!
# Powers of two and of ten

Doubles and machine words are scaled by powers of two, decimal texts by powers of ten.
-/

namespace GraphStack

def twoTo (n : Nat) : Nat := Nat.pow 2 n

def tenTo (n : Nat) : Nat := Nat.pow 10 n

end GraphStack
