/-!
# TOML values

The data that a TOML document stands for. Only texts, lists and tables matter to this library, so
numbers and the like are kept as they are written. The keys of a table are listed in order of first
arrival, each once.
-/

namespace ImplementorIndex.Toml

/-- A TOML value. -/
inductive Value where
  | string (text : String)
  | bool (value : Bool)
  /-- an integer or a float, as written -/
  | number (text : String)
  /-- a date, a time, or both, as written -/
  | moment (text : String)
  | array (items : List Value)
  | table (rows : List (String × Value))
deriving Inhabited

end ImplementorIndex.Toml
