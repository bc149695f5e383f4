import Unroll.Arith
import Unroll.Syntax
/-! # Types

Record types are told apart by their canonical names.  A record declared inside a block has a name
that ends in a quote and a number, so that two blocks can declare a record of one name; messages
leave that ending out.

Two types stand for ignorance: one for what depends on template arguments that are not known yet,
one for what an erroneous declaration left behind.  Checks let both pass.
-/
namespace Unroll

inductive Ty
  | unit
  | bool
  | int
  | char
  | text
  /-- The length is missing where it depends on template arguments. -/
  | array (elem : Ty) (len : Option Nat)
  | record (name : String)
  /-- A brace list, with the type of each element. -/
  | list (items : List Ty)
  | param (name : String)
  | dependent
  | error
deriving Repr, Inhabited

namespace Ty

/-! ## Equality -/

mutual

def same : Ty → Ty → Bool
  | unit, unit | bool, bool | int, int | char, char | text, text => true
  | dependent, dependent | error, error => true
  | array a m, array b n => same a b && m == n
  | record a, record b | param a, param b => a == b
  | list as, list bs => sameAll as bs
  | _, _ => false

def sameAll : List Ty → List Ty → Bool
  | [], [] => true
  | a :: as, b :: bs => same a b && sameAll as bs
  | _, _ => false

end

mutual

theorem same_refl : ∀ a : Ty, same a a = true
  | unit | bool | int | char | text | dependent | error => by simp [same]
  | array a n => by simp [same, same_refl a]
  | record n | param n => by simp [same]
  | list as => by simp [same, sameAll_refl as]

theorem sameAll_refl : ∀ as : List Ty, sameAll as as = true
  | [] => by simp [sameAll]
  | a :: as => by simp [sameAll, same_refl a, sameAll_refl as]

end

mutual

theorem eq_of_same : ∀ {a b : Ty}, same a b = true → a = b
  | unit, b, h | bool, b, h | int, b, h | char, b, h | text, b, h => by
    cases b <;> simp_all [same]
  | dependent, b, h | error, b, h => by cases b <;> simp_all [same]
  | record n, b, h | param n, b, h => by cases b <;> simp_all [same]
  | array a n, b, h => by
    cases b <;> simp [same] at h
    simp [eq_of_same h.1, h.2]
  | list as, b, h => by
    cases b <;> simp [same] at h
    simp [eq_of_sameAll h]

theorem eq_of_sameAll : ∀ {as bs : List Ty}, sameAll as bs = true → as = bs
  | [], bs, h => by cases bs <;> simp_all [sameAll]
  | a :: as, bs, h => by
    cases bs <;> simp [sameAll] at h
    simp [eq_of_same h.1, eq_of_sameAll h.2]

end

theorem same_iff {a b : Ty} : same a b = true ↔ a = b :=
  ⟨eq_of_same, fun h => h ▸ same_refl a⟩

instance : DecidableEq Ty := fun _ _ => decidable_of_iff _ same_iff

/-! ## Spelling -/

/-- The part of a record's name that its declaration gave it. -/
def shortName (canonical : String) : String :=
  String.ofList (canonical.toList.takeWhile (· != '\''))

mutual

/-- The type in words; `canonical` keeps record names whole. -/
def spell (canonical : Bool) : Ty → String
  | unit => "Unit"
  | bool => "bool"
  | int => "int"
  | char => "char"
  | text => "String"
  | array elem (some n) => "[" ++ spell canonical elem ++ "; " ++ toString n ++ "]"
  | array elem none => "[" ++ spell canonical elem ++ "; _]"
  | record name => if canonical then name else shortName name
  | list items => "\x7b" ++ ", ".intercalate (spellAll canonical items) ++ "\x7d"
  | param name => name
  | dependent => "<dependent>"
  | error => "<error>"

def spellAll (canonical : Bool) : List Ty → List String
  | [] => []
  | t :: ts => spell canonical t :: spellAll canonical ts

end

def display (t : Ty) : String := spell false t

def canonical (t : Ty) : String := spell true t

/-! ## Ignorance -/

mutual

/-- Whether the type mentions a template parameter that has no argument yet. -/
def isDependent : Ty → Bool
  | param _ | dependent => true
  | array elem len => len.isNone || isDependent elem
  | list items => anyDependent items
  | _ => false

def anyDependent : List Ty → Bool
  | [] => false
  | t :: ts => isDependent t || anyDependent ts

end

mutual

/-- Whether checks on the type have to be put off: it is dependent, or erroneous somewhere. -/
def isUnknown : Ty → Bool
  | error | param _ | dependent => true
  | array elem len => isUnknown elem || isDependent (array elem len)
  | list items => anyUnknown items
  | _ => false

def anyUnknown : List Ty → Bool
  | [] => false
  | t :: ts => isUnknown t || anyUnknown ts

end

/-- The type as it would be written at the place; brace lists and what is not known cannot be
written. -/
def toTypeRef? (span : Span) : Ty → Option TypeRef
  | unit => some (.bare span "Unit")
  | bool => some (.bare span "bool")
  | int => some (.bare span "int")
  | char => some (.bare span "char")
  | text => some (.bare span "String")
  | record name | param name => some (.bare span name)
  | array elem (some n) =>
    if n < Arith.bound then (toTypeRef? span elem).map (.array span · (.int span n)) else none
  | array _ none | list _ | dependent | error => none

/-- Types whose names are taken. -/
def builtin? : String → Option Ty
  | "Unit" => some unit
  | "bool" => some bool
  | "int" => some int
  | "char" => some char
  | "String" => some text
  | _ => none

end Ty

end Unroll
