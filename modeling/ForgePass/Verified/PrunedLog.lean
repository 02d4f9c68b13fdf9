import ForgePass.Verified.KeyedList

/-!
# Logs with retractions

A log of two kinds of entry: an insertion of a value, and a prune that names
tags and retracts every value inserted *before* it whose tag it names.  What
survives is said of each insertion by looking forward: it survives when no
later prune names its tag.

A store that appends on insertion and filters on a prune holds exactly the
survivors (`survivors_concat_insert`, `survivors_concat_prune`, both from
`survivors_append`).
-/

namespace ForgePass.Verified

/-- What happens to a store: a value comes in, or all values with listed tags
go. -/
inductive LogEntry (α γ : Type) where
  | insert (a : α)
  | prune (tags : List γ)
  deriving DecidableEq

namespace LogEntry

variable {α γ : Type}

/-- The value that came in, if one did. -/
def inserted? : LogEntry α γ → Option α
  | insert a => some a
  | prune _ => none

/-- The values a log inserts, in order. -/
def inserted (log : List (LogEntry α γ)) : List α := log.filterMap inserted?

@[simp] theorem inserted_nil : inserted ([] : List (LogEntry α γ)) = [] := rfl

@[simp] theorem inserted_concat_insert (log : List (LogEntry α γ)) (a : α) :
    inserted (log ++ [insert a]) = inserted log ++ [a] := by
  simp [inserted, inserted?]

@[simp] theorem inserted_concat_prune (log : List (LogEntry α γ))
    (tags : List γ) : inserted (log ++ [prune tags]) = inserted log := by
  simp [inserted, inserted?]

variable [DecidableEq γ]

/-- The entry is a prune that names the tag. -/
def names (g : γ) : LogEntry α γ → Bool
  | insert _ => false
  | prune tags => g ∈ tags

/-- The inserted values that no later prune names. A value inserted after the
prune that names it survives it. -/
def survivors (tag : α → γ) : List (LogEntry α γ) → List α
  | [] => []
  | prune _ :: log => survivors tag log
  | insert a :: log =>
      if log.any (names (tag a)) then survivors tag log
      else a :: survivors tag log

/-- Survivors keep the order of insertion. -/
theorem survivors_sublist (tag : α → γ) (log : List (LogEntry α γ)) :
    List.Sublist (survivors tag log) (inserted log) := by
  induction log with
  | nil => exact List.Sublist.slnil
  | cons e log ih =>
      cases e with
      | prune tags => exact ih
      | insert a =>
          by_cases hLater : log.any (names (tag a)) = true
          · simp only [survivors, hLater, if_true]
            exact ih.cons a
          · simp only [survivors, hLater]
            exact ih.cons_cons a

/-- What survives a longer log: the survivors of its first part that its second
part does not retract, and the survivors of its second part. -/
theorem survivors_append (tag : α → γ) (log later : List (LogEntry α γ)) :
    survivors tag (log ++ later) =
      (survivors tag log).filter (fun a => !later.any (names (tag a))) ++
        survivors tag later := by
  induction log with
  | nil => rfl
  | cons e log ih =>
      cases e with
      | prune tags => exact ih
      | insert a =>
          simp only [List.cons_append, survivors, List.any_append, ih]
          by_cases hLog : log.any (names (tag a)) = true
          · simp [hLog]
          · by_cases hLater : later.any (names (tag a)) = true
            · simp [hLog, hLater]
            · simp [hLog, hLater]

theorem survivors_concat_insert (tag : α → γ) (log : List (LogEntry α γ))
    (a : α) : survivors tag (log ++ [insert a]) = survivors tag log ++ [a] := by
  rw [survivors_append]
  simp [names, survivors]

theorem survivors_concat_prune (tag : α → γ) (log : List (LogEntry α γ))
    (tags : List γ) :
    survivors tag (log ++ [prune tags]) =
      dropBy tag tags (survivors tag log) := by
  rw [survivors_append]
  simp [names, survivors, dropBy]

end LogEntry

end ForgePass.Verified
