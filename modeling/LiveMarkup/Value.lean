/-
Prop values: what a host hands to a template.

`toText` is the text that a value shows; the absent value shows nothing. `same` is equality of values as the change
check sees it: floating-point numbers compare as numbers, everything else as it is.
-/
import LiveMarkup.Decimal.Positional

namespace LiveMarkup

inductive Value where
  | null
  | bool (b : Bool)
  | int (n : Int64)
  | float (x : Binary64)
  | str (s : String)
deriving DecidableEq, Repr, Inhabited

namespace Value

def toText : Value → String
  | null => ""
  | bool true => "true"
  | bool false => "false"
  | int n => toString n.toInt
  | float x => x.text
  | str s => s

def asString? : Value → Option String
  | str s => some s
  | _ => none

def isNull : Value → Bool
  | null => true
  | _ => false

/-- equality, floating-point numbers as numbers -/
def same : Value → Value → Bool
  | null, null => true
  | bool a, bool b => a == b
  | int m, int n => m == n
  | float x, float y => x.same y
  | str s, str t => s == t
  | _, _ => false

def ofOption : Option Value → Value
  | some v => v
  | none => null

instance : Coe Bool Value := ⟨bool⟩
instance : Coe Int64 Value := ⟨int⟩
instance : Coe Int32 Value := ⟨fun n => int n.toInt64⟩
instance : Coe Int16 Value := ⟨fun n => int n.toInt64⟩
instance : Coe Int8 Value := ⟨fun n => int n.toInt64⟩
instance : Coe UInt32 Value := ⟨fun n => int n.toUInt64.toInt64⟩
instance : Coe UInt16 Value := ⟨fun n => int n.toUInt64.toInt64⟩
instance : Coe UInt8 Value := ⟨fun n => int n.toUInt64.toInt64⟩
instance : Coe Binary64 Value := ⟨float⟩
instance : Coe String Value := ⟨str⟩

end Value

end LiveMarkup
