import Appchain.Error

/-!
# Registration

A registry is changed in place by one request after another, and a request may be
refused. A registry that checks a request before it changes anything is as it was
after a request that it has refused.
-/

namespace Appchain

/-- Requests to a registry. -/
abbrev Registration (R : Type) := ExceptT ConfigError (StateM R)

namespace Registration

variable {R : Type}

/-- The answer to a request, and the registry afterwards. -/
def answer (x : Registration R Unit) (r : R) : Except ConfigError Unit × R := x.run.run r

/-- The registry after a request that is not refused. -/
def granted (x : Registration R Unit) (r : R) : Except ConfigError R :=
  match x.answer r with
  | (.ok (), n) => .ok n
  | (.error e, _) => .error e

theorem granted_eq_ok {x : Registration R Unit} {r n : R} :
    x.granted r = .ok n ↔ x.answer r = (.ok (), n) := by
  unfold granted
  split
  · next h => simp [h]
  · next h => simp [h]

end Registration
end Appchain
