/-! # Values at run time

A record keeps its fields in the order in which they were set.
-/
namespace Unroll

inductive Value
  | int (value : Int)
  | bool (value : Bool)
  | char (value : Char)
  | text (value : String)
  | array (items : List Value)
  | record (name : String) (fields : List (String × Value))
  | unit
deriving Repr, Inhabited

inductive ValueKind
  | int
  | bool
  | char
  | text
  | array
  | record
  | unit
deriving DecidableEq, Repr

namespace ValueKind

def label : ValueKind → String
  | int => "int"
  | bool => "bool"
  | char => "char"
  | text => "String"
  | array => "array"
  | record => "record"
  | unit => "Unit"

end ValueKind

namespace Value

def kind : Value → ValueKind
  | int _ => .int
  | bool _ => .bool
  | char _ => .char
  | text _ => .text
  | array _ => .array
  | record _ _ => .record
  | unit => .unit

def field? (v : Value) (name : String) : Option Value :=
  match v with
  | record _ fields => fields.lookup name
  | _ => none

/-! ## Equality -/

mutual

def same : Value → Value → Bool
  | int a, int b => a == b
  | bool a, bool b => a == b
  | char a, char b => a == b
  | text a, text b => a == b
  | array as, array bs => sameAll as bs
  | record n as, record m bs => n == m && sameFields as bs
  | unit, unit => true
  | _, _ => false

def sameAll : List Value → List Value → Bool
  | [], [] => true
  | a :: as, b :: bs => same a b && sameAll as bs
  | _, _ => false

def sameFields : List (String × Value) → List (String × Value) → Bool
  | [], [] => true
  | (n, a) :: as, (m, b) :: bs => n == m && same a b && sameFields as bs
  | _, _ => false

end

mutual

theorem same_refl : ∀ a : Value, same a a = true
  | int _ | bool _ | char _ | text _ | unit => by simp [same]
  | array as => by simp [same, sameAll_refl as]
  | record n as => by simp [same, sameFields_refl as]

theorem sameAll_refl : ∀ as : List Value, sameAll as as = true
  | [] => by simp [sameAll]
  | a :: as => by simp [sameAll, same_refl a, sameAll_refl as]

theorem sameFields_refl : ∀ as : List (String × Value), sameFields as as = true
  | [] => by simp [sameFields]
  | (n, a) :: as => by simp [sameFields, same_refl a, sameFields_refl as]

end

mutual

theorem eq_of_same : ∀ {a b : Value}, same a b = true → a = b
  | int n, b, h | bool n, b, h | char n, b, h | text n, b, h => by cases b <;> simp_all [same]
  | unit, b, h => by cases b <;> simp_all [same]
  | array as, b, h => by
    cases b <;> simp [same] at h
    simp [eq_of_sameAll h]
  | record n as, b, h => by
    cases b <;> simp [same] at h
    simp [h.1, eq_of_sameFields h.2]

theorem eq_of_sameAll : ∀ {as bs : List Value}, sameAll as bs = true → as = bs
  | [], bs, h => by cases bs <;> simp_all [sameAll]
  | a :: as, bs, h => by
    cases bs <;> simp [sameAll] at h
    simp [eq_of_same h.1, eq_of_sameAll h.2]

theorem eq_of_sameFields : ∀ {as bs : List (String × Value)}, sameFields as bs = true → as = bs
  | [], bs, h => by cases bs <;> simp_all [sameFields]
  | (n, a) :: as, bs, h => by
    cases bs with
    | nil => simp [sameFields] at h
    | cons b bs =>
      simp [sameFields] at h
      simp [h.1.1, eq_of_same h.1.2, eq_of_sameFields h.2]

end

theorem same_iff {a b : Value} : same a b = true ↔ a = b :=
  ⟨eq_of_same, fun h => h ▸ same_refl a⟩

instance : DecidableEq Value := fun _ _ => decidable_of_iff _ same_iff

/-! ## What is printed -/

mutual

def display : Value → String
  | int n => toString n
  | bool b => if b then "true" else "false"
  | char c => String.singleton c
  | text s => s
  | array items => "[" ++ ", ".intercalate (displayAll items) ++ "]"
  | record name fields => name ++ " \x7b" ++ ",".intercalate (displayFields fields) ++ " \x7d"
  | unit => "()"

def displayAll : List Value → List String
  | [] => []
  | v :: vs => display v :: displayAll vs

def displayFields : List (String × Value) → List String
  | [] => []
  | (n, v) :: fs => (" " ++ n ++ ": " ++ display v) :: displayFields fs

end

end Value

end Unroll
