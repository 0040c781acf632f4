/-!
Names for what lives on a heap. A thing is a kind together with an index, which
counts the things of that kind in order of creation; a reference carries its
kind in its type. Things are ordered by kind first and then by index.
-/

namespace MarkPhase

inductive Kind
  | object
  | string
  | script
  | shape
  | baseShape
  | typeObject
  | xml
deriving DecidableEq, Inhabited

namespace Kind

/-- Every kind, in the order in which kinds are listed and compared. -/
def all : List Kind :=
  [.object, .string, .script, .shape, .baseShape, .typeObject, .xml]

/-- The place of a kind in `all`. -/
def place : Kind → Fin 7
  | .object => 0
  | .string => 1
  | .script => 2
  | .shape => 3
  | .baseShape => 4
  | .typeObject => 5
  | .xml => 6

def name : Kind → String
  | .object => "object"
  | .string => "string"
  | .script => "script"
  | .shape => "shape"
  | .baseShape => "base_shape"
  | .typeObject => "type_object"
  | .xml => "xml"

/-- The kind as the name of a constructor. -/
def title : Kind → String
  | .object => "Object"
  | .string => "String"
  | .script => "Script"
  | .shape => "Shape"
  | .baseShape => "BaseShape"
  | .typeObject => "TypeObject"
  | .xml => "Xml"

theorem place_injective {a b : Kind} (h : a.place = b.place) : a = b := by
  cases a <;> cases b <;> simp [place] at h <;> rfl

theorem mem_all (kind : Kind) : kind ∈ all := by
  cases kind <;> simp [all]

end Kind

/-- A thing of a heap, of whatever kind. -/
structure Thing where
  kind : Kind
  index : Nat
deriving DecidableEq, Inhabited

namespace Thing

def text (thing : Thing) : String :=
  thing.kind.name ++ "#" ++ toString thing.index

/-- Whether `a` comes no later than `b`: kinds in their listed order, equal
kinds by index. -/
def notAfter (a b : Thing) : Bool :=
  decide (a.kind.place < b.kind.place) || (a.kind == b.kind && decide (a.index ≤ b.index))

/-- A number of its own for every thing. -/
def code (thing : Thing) : Nat :=
  7 * thing.index + thing.kind.place

theorem code_injective {a b : Thing} (h : a.code = b.code) : a = b := by
  obtain ⟨kind, index⟩ := a
  obtain ⟨kind', index'⟩ := b
  simp only [code] at h
  have hplace : kind.place = kind'.place := by
    apply Fin.ext
    omega
  have hindex : index = index' := by
    rw [hplace] at h
    omega
  rw [Kind.place_injective hplace, hindex]

end Thing

/-- A reference to a thing whose kind is known. -/
structure Ref (kind : Kind) where
  index : Nat
deriving DecidableEq, Inhabited

namespace Ref

def thing {kind : Kind} (ref : Ref kind) : Thing :=
  ⟨kind, ref.index⟩

def text {kind : Kind} (ref : Ref kind) : String :=
  ref.thing.text

theorem thing_injective {kind : Kind} {a b : Ref kind} (h : a.thing = b.thing) : a = b := by
  cases a
  cases b
  simpa [thing] using h

end Ref

abbrev ObjectId := Ref .object
abbrev StringId := Ref .string
abbrev ScriptId := Ref .script
abbrev ShapeId := Ref .shape
abbrev BaseShapeId := Ref .baseShape
abbrev TypeObjectId := Ref .typeObject
abbrev XmlId := Ref .xml

/-- A compartment of the heap, by order of creation. -/
structure CompartmentId where
  index : Nat
deriving DecidableEq, Inhabited

namespace CompartmentId

def text (id : CompartmentId) : String :=
  "compartment#" ++ toString id.index

/-- The compartment whose strings every other compartment shares. -/
def atoms : CompartmentId :=
  ⟨0⟩

end CompartmentId

end MarkPhase
