import Mathlib.Data.List.Basic
import Mathlib.Data.Int.Notation

/-!
# JSON values

The payloads of events, the metadata of audit rows and the bodies of messages
are JSON.  Numbers are integers here: the program itself writes only strings
and small integers into JSON.

## Main definitions

* `Json` — JSON values.
* `Json.get` — reading a property, `undefined` being `none`.
* `Json.truthy` — JavaScript's truth of a value.
-/

namespace ScaleForge

/-- A JSON value; an object is the list of its properties. -/
inductive Json
  | null
  | bool (b : Bool)
  | num (n : ℤ)
  | str (s : String)
  | arr (xs : List Json)
  | obj (fields : List (String × Json))

namespace Json

/-- The value of a property, or `none` where JavaScript gives `undefined`.
Only objects have the properties the program asks for. -/
def get (key : String) : Json → Option Json
  | obj fields => fields.lookup key
  | _ => none

/-- JavaScript's truth of a value. -/
def truthy : Json → Bool
  | null => false
  | bool b => b
  | num n => n ≠ 0
  | str s => s ≠ ""
  | arr _ => true
  | obj _ => true

/-- `typeof v === 'string' ? v : undefined`. -/
def string? : Option Json → Option String
  | some (str s) => some s
  | _ => none

end Json

end ScaleForge
