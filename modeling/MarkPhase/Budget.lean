/-!
The work that one slice of marking may do before it yields. A budget is either
unlimited or a number of units left, and one that has run out stays run out.
-/

namespace MarkPhase

structure Budget where
  remaining : Option Nat
deriving DecidableEq, Inhabited

namespace Budget

def unlimited : Budget :=
  ⟨none⟩

def work (units : Nat) : Budget :=
  ⟨some units⟩

def step (budget : Budget) (units : Nat) : Budget :=
  ⟨budget.remaining.map (· - units)⟩

def isOver (budget : Budget) : Bool :=
  budget.remaining == some 0

def isUnlimited (budget : Budget) : Bool :=
  budget.remaining.isNone

end Budget

end MarkPhase
