import Mathlib.Algebra.Order.Ring.Rat

/-!
# JSON documents

Documents as a parser hands them on: an object is a list of members, and a number is an integer of 64
bits, or a fraction. `depth` is how deep arrays and objects are nested, and `mapFractions` changes each
fraction of a document.
-/

namespace KeysCore.Lib

inductive JsonNumber where
  | posInt (n : UInt64)
  | negInt (i : Int)
  | float (r : ℚ)
deriving DecidableEq

inductive Json where
  | null
  | bool (b : Bool)
  | number (n : JsonNumber)
  | string (s : String)
  | array (items : List Json)
  | object (members : List (String × Json))

namespace Json

/-- The value of the member `name`. -/
def member (name : String) (members : List (String × Json)) : Option Json :=
  (members.find? (·.1 = name)).map (·.2)

mutual

/-- How deep arrays and objects are nested. -/
def depth : Json → Nat
  | array items => depthAll items + 1
  | object members => depthMembers members + 1
  | _ => 0

def depthAll : List Json → Nat
  | [] => 0
  | j :: js => max j.depth (depthAll js)

def depthMembers : List (String × Json) → Nat
  | [] => 0
  | (_, j) :: ms => max j.depth (depthMembers ms)

end

mutual

/-- Each fraction replaced. -/
def mapFractions (f : ℚ → ℚ) : Json → Json
  | number (.float r) => number (.float (f r))
  | array items => array (mapAll f items)
  | object members => object (mapMembers f members)
  | j => j

def mapAll (f : ℚ → ℚ) : List Json → List Json
  | [] => []
  | j :: js => j.mapFractions f :: mapAll f js

def mapMembers (f : ℚ → ℚ) : List (String × Json) → List (String × Json)
  | [] => []
  | (name, j) :: ms => (name, j.mapFractions f) :: mapMembers f ms

end

theorem depth_le_depthAll {j : Json} {js : List Json} (h : j ∈ js) : j.depth ≤ depthAll js := by
  induction js with
  | nil => cases h
  | cons i js ih =>
    rw [depthAll]
    rcases List.mem_cons.1 h with rfl | h
    · exact le_max_left _ _
    · exact (ih h).trans (le_max_right _ _)

theorem depth_le_depthMembers {m : String × Json} {ms : List (String × Json)} (h : m ∈ ms) :
    m.2.depth ≤ depthMembers ms := by
  induction ms with
  | nil => cases h
  | cons i ms ih =>
    obtain ⟨name, j⟩ := i
    rw [depthMembers]
    rcases List.mem_cons.1 h with rfl | h
    · exact le_max_left _ _
    · exact (ih h).trans (le_max_right _ _)

theorem mapAll_eq (f : ℚ → ℚ) (js : List Json) : mapAll f js = js.map (mapFractions f) := by
  induction js with
  | nil => rfl
  | cons j js ih => rw [mapAll, ih, List.map_cons]

/-- A member that is read is one of the object. -/
theorem mem_of_member {name : String} {members : List (String × Json)} {j : Json}
    (h : member name members = some j) : (name, j) ∈ members := by
  obtain ⟨m, hm, rfl⟩ := Option.map_eq_some_iff.1 h
  have hname : m.1 = name := by simpa using List.find?_some hm
  rw [← hname]
  exact List.mem_of_find?_eq_some hm

theorem depth_lt_of_item {j : Json} {items : List Json} (h : j ∈ items) : j.depth < (array items).depth := by
  rw [depth]
  exact Nat.lt_succ_of_le (depth_le_depthAll h)

end Json

end KeysCore.Lib
