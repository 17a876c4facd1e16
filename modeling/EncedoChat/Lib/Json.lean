import Mathlib.Algebra.Group.Nat.Defs
import Mathlib.Data.Rat.Defs
import EncedoChat.Lib.Text

/-!
# JSON values

What a text read as JSON may be. An object has each key once; a number is a double.
-/

namespace EncedoChat

inductive Json where
  | null
  | bool (b : Bool)
  | num (q : Rat)
  /-- a number beyond the doubles -/
  | infinity (negative : Bool)
  | str (s : String)
  | arr (xs : List Json)
  | obj (kvs : List (String × Json))

namespace Json

/-- `v.k`; `none` is `undefined`. Nothing but an object has keys a sender chooses. -/
def field (v : Json) (k : String) : Option Json :=
  match v with
  | obj kvs => kvs.lookup k
  | _ => none

/-- `o.k ?? d`, of what may be `undefined` -/
def orElse (v : Option Json) (d : Json) : Json :=
  match v with
  | none | some null => d
  | some v => v

def isStr (v : Option Json) (s : String) : Bool :=
  match v with
  | some (str t) => t = s
  | _ => false

def isNum (v : Option Json) (n : Int) : Bool :=
  match v with
  | some (num q) => q = n
  | _ => false

/-- The number, if `Number.isSafeInteger(v)`. -/
def safeInt (v : Option Json) : Option Int :=
  match v with
  | some (num q) => if q.den = 1 ∧ q.num.natAbs ≤ 2 ^ 53 - 1 then some q.num else none
  | _ => none

/-- `null` in an array is written as nothing. -/
def blank (v : Json) (s : String) : String :=
  match v with
  | null => ""
  | _ => s

/-- Reading a field of `null` throws. -/
def isNull : Json → Bool
  | null => true
  | _ => false

/-- The text, if `typeof v === 'string'`. -/
def asStr (v : Option Json) : Option String :=
  match v with
  | some (str s) => some s
  | _ => none

/-- `Boolean(v)` -/
def truthy : Option Json → Bool
  | none | some null | some (bool false) => false
  | some (num q) => q ≠ 0
  | some (str s) => s ≠ ""
  | _ => true

/-- `String(v)` throws: an object's own `toString` is no function. -/
def throws : Json → Bool
  | obj kvs => (kvs.lookup "toString").isSome
  | arr xs => throwsList xs
  | _ => false
where
  throwsList : List Json → Bool
    | [] => false
    | x :: xs => throws x || throwsList xs

variable (numText : Rat → String)

mutual

/-- `String(v)` -/
def text : Json → String
  | null => "null"
  | bool true => "true"
  | bool false => "false"
  | num q => numText q
  | infinity false => "Infinity"
  | infinity true => "-Infinity"
  | str s => s
  | arr xs => join xs
  | obj _ => "[object Object]"

/-- `xs.join()` -/
def join : List Json → String
  | [] => ""
  | x :: xs => blank x (text x) ++ (if xs.isEmpty then "" else ",") ++ join xs

end

/-- `String(v ?? '')`; `none` if it throws. -/
def label (v : Option Json) : Option String :=
  match v with
  | none | some null => some ""
  | some v => if v.throws then none else some (text numText v)

end Json

end EncedoChat
