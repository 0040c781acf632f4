/-!
Words and the size of memory. Ids and the ends of a saved range are words of 32 bits.
What has to lie in one piece, such as the slots of an object or a text, can be no
larger than what a program can address, and no more may be asked for at once than a
signed word of 64 bits can count.
-/

namespace MarkPhase

/-- A number in a word of 32 bits, which drops what does not fit. -/
def toWord (n : Nat) : Nat :=
  n % Nat.pow 2 32

/-- The bytes that a program can address. -/
def addressableBytes : Nat := Nat.pow 2 47

/-- The bytes that may not be asked for in one piece any more. -/
def oversizedBytes : Nat := Nat.pow 2 63

/-- Whether `count` items of `size` bytes can lie in memory side by side. -/
def fitsMemory (count size : Nat) : Bool :=
  decide (count * size < addressableBytes)

theorem toWord_le (n : Nat) : toWord n ≤ n :=
  Nat.mod_le ..

end MarkPhase
