import MarkPhase.Graph

/-!
The characters of strings. A range of a text is counted in bytes of UTF-8 and
must start and end between two characters. A dependent string is a range of its
base, and so of the string at the bottom of its bases; a rope is its left part
followed by its right part. Bases and parts are older than the strings made from
them, so both readings end.
-/

namespace MarkPhase

/-- The characters after the first `count` bytes, if no character straddles
that boundary. -/
def dropBytes : Nat → List Char → Option (List Char)
  | 0, chars => some chars
  | _ + 1, [] => none
  | count + 1, char :: rest =>
    if char.utf8Size ≤ count + 1 then dropBytes (count + 1 - char.utf8Size) rest else none

/-- The characters in the first `count` bytes, if no character straddles that
boundary. -/
def takeBytes : Nat → List Char → Option (List Char)
  | 0, _ => some []
  | _ + 1, [] => none
  | count + 1, char :: rest =>
    if char.utf8Size ≤ count + 1 then
      (takeBytes (count + 1 - char.utf8Size) rest).map (char :: ·)
    else
      none

/-- The text of `length` bytes that starts at byte `start`. -/
def slice? (chars : String) (start length : Nat) : Option String := do
  let rest ← dropBytes start chars.toList
  let taken ← takeBytes length rest
  return String.ofList taken

namespace Graph

/-- The text of `length` bytes from byte `start` on of a string that is not a
rope. A range of a dependent string is a range of its base. -/
def readRange (g : Graph) (id : StringId) (start length : Nat) : Except Fault String :=
  match g.string? id with
  | none => .error .outOfBounds
  | some string =>
    match string.layout with
    | .linear chars =>
      match slice? chars start length with
      | some range => .ok range
      | none => .error (.dependentRange start (start + length) id)
    | .dependent base offset _ =>
      if base.index < id.index then
        g.readRange base (offset + start) length
      else
        .error .endless
    | .rope .. => .error (.ropeWithoutChars id)
termination_by id.index

/-- The characters of a string that is not a rope. -/
def linearChars (g : Graph) (id : StringId) : Except Fault String :=
  match g.string? id with
  | none => .error .outOfBounds
  | some string =>
    match string.layout with
    | .linear chars => .ok chars
    | .dependent base start length => g.readRange base start length
    | .rope .. => .error (.ropeWithoutChars id)

/-- A weight that a rope's two parts together stay below. -/
private def pendingWeight : List StringId → Nat
  | [] => 0
  | id :: rest => Nat.pow 3 (id.index + 1) + pendingWeight rest

private theorem pendingWeight_tail (id : StringId) (rest : List StringId) :
    pendingWeight rest < pendingWeight (id :: rest) := by
  have : 0 < Nat.pow 3 (id.index + 1) := Nat.pow_pos (by omega)
  simp only [pendingWeight]
  omega

private theorem pendingWeight_parts (id left right : StringId) (rest : List StringId)
    (hleft : left.index < id.index) (hright : right.index < id.index) :
    pendingWeight (left :: right :: rest) < pendingWeight (id :: rest) := by
  have hl : Nat.pow 3 (left.index + 1) ≤ Nat.pow 3 id.index :=
    Nat.pow_le_pow_right (by omega) hleft
  have hr : Nat.pow 3 (right.index + 1) ≤ Nat.pow 3 id.index :=
    Nat.pow_le_pow_right (by omega) hright
  have hpos : 0 < Nat.pow 3 id.index := Nat.pow_pos (by omega)
  have hsucc : Nat.pow 3 (id.index + 1) = Nat.pow 3 id.index * 3 := rfl
  simp only [pendingWeight]
  omega

/-- Appends the characters of the pending strings, the first one first. -/
def flattenPending (g : Graph) (pending : List StringId) (text : String) : Except Fault String :=
  match pending with
  | [] => .ok text
  | id :: rest =>
    match g.string? id with
    | none => .error .outOfBounds
    | some string =>
      match string.layout with
      | .rope left right _ =>
        if _h : left.index < id.index ∧ right.index < id.index then
          g.flattenPending (left :: right :: rest) text
        else
          .error .endless
      | _ =>
        match g.linearChars id with
        | .ok chars => g.flattenPending rest (text ++ chars)
        | .error fault => .error fault
termination_by pendingWeight pending
decreasing_by
  · exact pendingWeight_parts id left right rest _h.1 _h.2
  · exact pendingWeight_tail id rest

/-- The characters of any string. -/
def flatten (g : Graph) (id : StringId) : Except Fault String :=
  match g.string? id with
  | none => .error .outOfBounds
  | some string =>
    match allocationFault? string.length 1 with
    | none => g.flattenPending [id] ""
    | some fault => .error fault

end Graph

end MarkPhase
