import ImplementorIndex.Json.Numeral

/-!
# JSON values

The data that a JSON text stands for. The members of an object are listed in order of first
arrival, each name once.
-/

namespace ImplementorIndex.Json

/-- A JSON value. -/
inductive Value where
  | null
  | bool (value : Bool)
  | number (value : Numeral)
  | string (text : String)
  | array (items : List Value)
  | object (members : List (String × Value))
deriving Inhabited

end ImplementorIndex.Json
