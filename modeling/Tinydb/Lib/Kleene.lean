import Mathlib.Logic.Basic

/-! Kleene's three truth values: `none` is UNKNOWN. -/

namespace Tinydb.Lib.Kleene

def and : Option Bool → Option Bool → Option Bool
  | some false, _ | _, some false => some false
  | some true, some true => some true
  | none, _ | _, none => none

def or : Option Bool → Option Bool → Option Bool
  | some true, _ | _, some true => some true
  | some false, some false => some false
  | none, _ | _, none => none

def not (a : Option Bool) : Option Bool := a.map (!·)

end Tinydb.Lib.Kleene
