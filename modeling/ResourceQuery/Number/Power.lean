/-!
# Powers of the two bases

Numbers are stored in binary and written in decimal; these are the powers that bound and scale them.
-/

namespace ResourceQuery

/-- Two to the power `n`. -/
abbrev twoTo (n : Nat) : Nat := Nat.pow 2 n

/-- Ten to the power `n`. -/
abbrev tenTo (n : Nat) : Nat := Nat.pow 10 n

theorem twoTo_succ (n : Nat) : twoTo (n + 1) = twoTo n * 2 := rfl

theorem tenTo_succ (n : Nat) : tenTo (n + 1) = tenTo n * 10 := rfl

end ResourceQuery
