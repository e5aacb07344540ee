import Ubl.Nrf.FromJson

/-!
# `envelope.rs`: worlds

A world is `a/<app>` or `a/<app>/t/<tenant>`.
-/

namespace Ubl.Nrf

/-- `s.split(sep).collect::<Vec<_>>()`. -/
def splitParts (sep : Char) (s : String) : List String :=
  (s.toList.splitOn sep).map String.ofList

/-- `EnvelopeError::InvalidWorld`, as text. -/
def invalidWorldText (t : Text) (world : String) : String :=
  "@world must match a/\x7bapp\x7d/t/\x7btenant\x7d, got " ++ t.debug world

def validateWorld (t : Text) (world : String) : Except String Unit :=
  match splitParts '/' world with
  | [a, app] => if a = "a" ∧ app ≠ "" then .ok () else .error (invalidWorldText t world)
  | [a, app, tt, tenant] =>
    if a = "a" ∧ tt = "t" ∧ app ≠ "" ∧ tenant ≠ "" then .ok ()
    else .error (invalidWorldText t world)
  | _ => .error (invalidWorldText t world)

/-- `(app, tenant)` of a world with a tenant. -/
def parseWorld (world : String) : Option (String × String) :=
  match splitParts '/' world with
  | [a, app, t, tenant] => if a = "a" ∧ t = "t" then some (app, tenant) else none
  | _ => none

end Ubl.Nrf
