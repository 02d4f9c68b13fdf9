import Mathlib.Data.List.Basic

/-!
# Last-writer registers over a log

A register reads as what the last entry of a log that writes it wrote, and as
its default before the first such entry (`lastWrite`).  A record that comes to
life with one entry of a log is read off that entry and the entries after it
(`since`).

Logs grow at the end, and both notions have one rule for that:
`lastWrite_concat` and `since_concat`.
-/

namespace ForgePass.Verified

variable {α β : Type}

/-- What the last write in `log` wrote, `d` before the first. Entries that are
not writes are passed over. -/
def lastWrite (write : α → Option β) (d : β) (log : List α) : β :=
  (log.filterMap write).getLast?.getD d

@[simp] theorem lastWrite_nil (write : α → Option β) (d : β) :
    lastWrite write d [] = d := rfl

theorem lastWrite_concat (write : α → Option β) (d : β) (log : List α)
    (a : α) :
    lastWrite write d (log ++ [a]) =
      (write a).getD (lastWrite write d log) := by
  unfold lastWrite
  rw [List.filterMap_append]
  cases hWrite : write a with
  | none => simp [hWrite]
  | some b => simp [hWrite]

/-- The first entry that `first` accepts, with the entries after it. What came
before it is dropped. -/
def since (first : α → Option β) : List α → Option (β × List α)
  | [] => none
  | a :: log =>
      match first a with
      | some b => some (b, log)
      | none => since first log

theorem since_cons (first : α → Option β) (a : α) (log : List α) :
    since first (a :: log) =
      match first a with
      | some b => some (b, log)
      | none => since first log := rfl

theorem since_concat (first : α → Option β) (log : List α) (a : α) :
    since first (log ++ [a]) =
      match since first log with
      | some (b, later) => some (b, later ++ [a])
      | none => (first a).map fun b => (b, []) := by
  induction log with
  | nil =>
      rw [List.nil_append, since_cons]
      cases first a with
      | none => rfl
      | some b => rfl
  | cons c log ih =>
      rw [List.cons_append, since_cons, since_cons]
      cases first c with
      | none => exact ih
      | some b => rfl

theorem since_isSome_iff (first : α → Option β) (log : List α) :
    (since first log).isSome = true ↔
      ∃ a ∈ log, (first a).isSome = true := by
  induction log with
  | nil => simp [since]
  | cons c log ih =>
      rw [since_cons]
      cases hFirst : first c with
      | none => simp [ih, hFirst]
      | some b => simp [hFirst]

end ForgePass.Verified
