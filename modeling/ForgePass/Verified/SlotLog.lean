import Mathlib.Data.List.Basic
import Mathlib.Data.List.Induction

/-!
# Append-only logs spread over numbered slots

A log too large for one storage entry is kept as one entry per position plus a
counter.  `Logged get log` says that the slots read through `get` hold exactly
the entries of `log` at the positions below its length; whatever lies above
is not constrained, so a log may be read while stale slots exist.

`read` is the loop that reads such a log back and skips missing slots.  On a
logged sequence nothing is skipped (`Logged.read`).
-/

namespace ForgePass.Verified

/-- Slots `0 .. log.length - 1` hold `log`. Slots from there on may hold
anything. -/
def Logged {α : Type} (get : Nat → Option α) (log : List α) : Prop :=
  ∀ i, i < log.length → get i = log[i]?

namespace Logged

variable {α : Type} {get get' : Nat → Option α} {log : List α}

theorem nil : Logged get [] := fun _ hi => absurd hi (Nat.not_lt_zero _)

/-- Writing the next slot appends to the log; the slots below are a frame. -/
theorem push {a : α} (h : Logged get log)
    (hFrame : ∀ i, i < log.length → get' i = get i)
    (hNew : get' log.length = some a) : Logged get' (log ++ [a]) := by
  intro i hi
  rw [List.length_append, List.length_singleton] at hi
  by_cases hLast : i = log.length
  · subst hLast
    simp [hNew]
  · have hLt : i < log.length := by omega
    rw [hFrame i hLt, h i hLt, List.getElem?_append_left hLt]

/-- A frame step: no slot below the log's end changes. -/
theorem congr (h : Logged get log)
    (hFrame : ∀ i, i < log.length → get' i = get i) : Logged get' log :=
  fun i hi => (hFrame i hi).trans (h i hi)

/-- The skipping reader returns the whole log: there is nothing to skip below
its end. -/
theorem read (h : Logged get log) :
    (List.range log.length).filterMap get = log := by
  induction log using List.reverseRecOn with
  | nil => rfl
  | append_singleton log a ih =>
      have hInit : Logged get log := fun i hi => by
        rw [h i (by simp; omega), List.getElem?_append_left hi]
      have hLast : get log.length = some a := by
        rw [h log.length (by simp)]
        simp
      rw [List.length_append, List.length_singleton, List.range_succ,
        List.filterMap_append, ih hInit]
      simp [hLast]

end Logged

end ForgePass.Verified
