import Mathlib

/-! A server that takes one job at a time and is never idle while jobs wait: when each job in the
order of service begins and ends, from its arrival and its length alone. -/

namespace SingleServer

variable {τ : Type*} [AddCommGroup τ] [LinearOrder τ] [IsOrderedAddMonoid τ]

/-- A job comes at a time and takes a time. -/
structure Job (τ : Type*) where
  arrival : τ
  work : τ

/-- When the last of the jobs is done, by a server that was busy until `free`. -/
def finish (free : τ) : List (Job τ) → τ
  | [] => free
  | j :: js => finish (max free j.arrival + j.work) js

/-- When each of the jobs begins. -/
def starts (free : τ) : List (Job τ) → List τ
  | [] => []
  | j :: js => max free j.arrival :: starts (max free j.arrival + j.work) js

omit [IsOrderedAddMonoid τ]

theorem finish_append (free : τ) (js ks : List (Job τ)) :
    finish free (js ++ ks) = finish (finish free js) ks := by
  induction js generalizing free with
  | nil => rfl
  | cons j js ih => exact ih _

theorem starts_append (free : τ) (js ks : List (Job τ)) :
    starts free (js ++ ks) = starts free js ++ starts (finish free js) ks := by
  induction js generalizing free with
  | nil => rfl
  | cons j js ih => exact congrArg _ (ih _)

end SingleServer
