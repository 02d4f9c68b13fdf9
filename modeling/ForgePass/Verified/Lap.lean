import ForgePass.Verified.SlotLog

/-!
# Logs whose counter wraps

A log in numbered slots whose counter has `size` values starts over at slot
zero when the counter wraps.  What a reader that goes up to the counter finds
is then the last *lap* of the log: the entries added since it wrapped last.
Slots above the counter still hold entries of the lap before, which nobody
reads until they are overwritten (`Logged.lap`).
-/

namespace ForgePass.Verified

variable {α : Type} {size : Nat} {log : List α}

/-- The entries since the counter of the log wrapped last: none of them where
it has just come back to 0. -/
def lastLap (size : Nat) (log : List α) : List α :=
  log.drop (log.length - log.length % size)

theorem length_lastLap (size : Nat) (log : List α) :
    (lastLap size log).length = log.length % size := by
  have hLe := Nat.mod_le log.length size
  unfold lastLap
  rw [List.length_drop]
  omega

/-- A log shorter than its counter is wide is all in its first lap. -/
theorem lastLap_of_lt (h : log.length < size) : lastLap size log = log := by
  unfold lastLap
  rw [Nat.mod_eq_of_lt h, Nat.sub_self, List.drop_zero]

theorem lastLap_map {β : Type} (f : α → β) :
    lastLap size (log.map f) = (lastLap size log).map f := by
  unfold lastLap
  rw [List.length_map, List.map_drop]

theorem lastLap_concat (h : log.length % size + 1 < size) (a : α) :
    lastLap size (log ++ [a]) = lastLap size log ++ [a] := by
  have hLe := Nat.mod_le log.length size
  have hNext : (log.length + 1) % size = log.length % size + 1 := by
    rw [Nat.add_mod, Nat.mod_eq_of_lt (a := 1) (by omega), Nat.mod_eq_of_lt h]
  have hStart : log.length + 1 - (log.length % size + 1) =
      log.length - log.length % size := by omega
  unfold lastLap
  rw [List.length_append, List.length_singleton, hNext, hStart,
    List.drop_append_of_le_length (by omega)]

theorem lastLap_concat_full (h : log.length % size + 1 = size) (a : α) :
    lastLap size (log ++ [a]) = [] := by
  have hNext : (log.length + 1) % size = 0 := by
    rw [← Nat.mod_add_mod, h, Nat.mod_self]
  unfold lastLap
  rw [List.length_append, List.length_singleton, hNext, Nat.sub_zero,
    List.drop_eq_nil_of_le (by simp)]

/-- Writing the slot of the counter keeps the last lap in its slots, also where
the counter comes back to 0 and the lap is empty. -/
theorem Logged.lap {get get' : Nat → Option α} (hSize : 0 < size)
    (h : Logged get (lastLap size log)) {a : α}
    (hFrame : ∀ i, i < log.length % size → get' i = get i)
    (hNew : get' (log.length % size) = some a) :
    Logged get' (lastLap size (log ++ [a])) := by
  have hLt := Nat.mod_lt log.length hSize
  by_cases hFull : log.length % size + 1 = size
  · rw [lastLap_concat_full hFull]
    exact .nil
  · rw [lastLap_concat (by omega)]
    apply h.push
    · rw [length_lastLap]
      exact hFrame
    · rw [length_lastLap]
      exact hNew

end ForgePass.Verified
