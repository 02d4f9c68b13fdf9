import Mathlib.Data.List.Basic
import Mathlib.Data.List.Nodup
import Mathlib.Data.List.Range

/-!
# Machine counters below their maximum

`+ 1` on a fixed-width counter wraps at the maximum.  One below it, the value
grows by exactly one, and the numbers issued from a counter that starts at
zero are `1, 2, 3, …`.

`Numbered` says that of a log: its entries carry the numbers `1, 2, 3, …` in
order.  So numbers increase along the log, determine their entry, and fill the
range up to its length.
-/

namespace ForgePass.Verified

/-- One step up modulo `size` leads to 0 from the maximum only. -/
theorem below_of_succ_mod_ne_zero {n size : Nat} (hRange : n < size)
    (h : (n + 1) % size ≠ 0) : n + 1 < size := by
  by_contra hMax
  have hTop : n + 1 = size := by omega
  rw [hTop, Nat.mod_self] at h
  exact h rfl

/-! ### Counters of 64 bits -/

theorem uint64_toNat_add_one (c : UInt64) :
    (c + 1).toNat = (c.toNat + 1) % UInt64.size := by
  rw [UInt64.toNat_add, UInt64.toNat_one]

theorem uint64_toNat_succ {c : UInt64} (h : c.toNat + 1 < UInt64.size) :
    (c + 1).toNat = c.toNat + 1 := by
  rw [uint64_toNat_add_one, Nat.mod_eq_of_lt h]

/-- A counter that grew was below its maximum. -/
theorem uint64_below_of_lt_succ {c : UInt64} (h : c.toNat < (c + 1).toNat) :
    c.toNat + 1 < UInt64.size := by
  apply below_of_succ_mod_ne_zero c.toNat_lt_size
  rw [← uint64_toNat_add_one]
  exact Nat.ne_zero_of_lt h

/-! ### Counters of 32 bits -/

theorem uint32_toNat_add_one (c : UInt32) :
    (c + 1).toNat = (c.toNat + 1) % UInt32.size := by
  rw [UInt32.toNat_add, UInt32.toNat_one]

theorem uint32_toNat_succ {c : UInt32} (h : c.toNat + 1 < UInt32.size) :
    (c + 1).toNat = c.toNat + 1 := by
  rw [uint32_toNat_add_one, Nat.mod_eq_of_lt h]

/-- A counter that did not come back to 0 was below its maximum. -/
theorem uint32_below_of_ne_zero {c : UInt32} (h : c + 1 ≠ 0) :
    c.toNat + 1 < UInt32.size := by
  apply below_of_succ_mod_ne_zero c.toNat_lt_size
  rw [← uint32_toNat_add_one]
  exact fun hZero => h (UInt32.toNat_inj.mp hZero)

theorem uint32_below_of_lt_succ {c : UInt32} (h : c.toNat < (c + 1).toNat) :
    c.toNat + 1 < UInt32.size := by
  apply uint32_below_of_ne_zero
  intro hZero
  rw [hZero] at h
  exact absurd h (Nat.not_lt_zero _)

/-! ## Numbered logs -/

/-- Numbers issued so far are `1 .. n`; issuing `n + 1` keeps it so. -/
theorem range'_one_concat {ids : List Nat} {n : Nat}
    (h : ids = List.range' 1 n) : ids ++ [n + 1] = List.range' 1 (n + 1) := by
  rw [h, List.range'_1_concat, Nat.add_comm 1 n]

/-- The entries of `log` are numbered `1, 2, 3, …`, without a gap and from the
first entry on. -/
def Numbered {α : Type} (number : α → Nat) (log : List α) : Prop :=
  log.map number = List.range' 1 log.length

namespace Numbered

variable {α : Type} {number : α → Nat} {log : List α}

theorem nil : Numbered number [] := rfl

theorem concat (h : Numbered number log) {a : α}
    (hNext : number a = log.length + 1) : Numbered number (log ++ [a]) := by
  unfold Numbered
  rw [List.map_append, List.map_singleton, hNext, List.length_append,
    List.length_singleton]
  exact range'_one_concat h

/-- All but the last entry are numbered. -/
theorem of_concat {a : α} (h : Numbered number (log ++ [a])) :
    Numbered number log := by
  unfold Numbered at h ⊢
  rw [List.map_append, List.length_append, List.length_singleton,
    List.range'_1_concat] at h
  exact (List.append_inj' h rfl).1

theorem increasing (h : Numbered number log) :
    log.Pairwise fun a b => number a < number b := by
  rw [← List.pairwise_map, h]
  exact List.pairwise_lt_range' 1

theorem nodup (h : Numbered number log) : (log.map number).Nodup := by
  rw [h]
  exact List.nodup_range' 1

theorem range (h : Numbered number log) {a : α} (ha : a ∈ log) :
    1 ≤ number a ∧ number a ≤ log.length := by
  have hMem := List.mem_map_of_mem (f := number) ha
  rw [h, List.mem_range'_1] at hMem
  omega

theorem exists_of_range (h : Numbered number log) {k : Nat} (hLow : 1 ≤ k)
    (hHigh : k ≤ log.length) : ∃ a ∈ log, number a = k := by
  have hMem : k ∈ log.map number := by
    rw [h, List.mem_range'_1]
    omega
  exact List.mem_map.mp hMem

/-- The last entry carries the length as its number. -/
theorem last (h : Numbered number log) {a : α} (ha : a ∈ log.getLast?) :
    number a = log.length := by
  obtain ⟨front, rfl⟩ := List.getLast?_eq_some_iff.mp ha
  unfold Numbered at h
  rw [List.map_append, List.length_append, List.length_singleton,
    List.range'_1_concat] at h
  have hLast := (List.append_inj' h rfl).2
  rw [List.map_singleton, List.cons.injEq] at hLast
  rw [hLast.1, List.length_append, List.length_singleton, Nat.add_comm]

/-- A relation that holds along the log holds in the order of the numbers. -/
theorem ordered (h : Numbered number log) {r : α → α → Prop}
    (hSorted : log.Pairwise r) :
    ∀ a ∈ log, ∀ b ∈ log, number a < number b → r a b := by
  have hForward : log.Pairwise fun a b => number a < number b → r a b := by
    apply hSorted.imp
    intro a b hr _
    exact hr
  have hBackward :
      log.Pairwise (flip fun a b => number a < number b → r a b) := by
    apply h.increasing.imp
    intro a b hLt hGt
    exact absurd hGt (Nat.lt_asymm hLt)
  have hRefl : ∀ a ∈ log, number a < number a → r a a := fun a _ hLt =>
    absurd hLt (Nat.lt_irrefl _)
  intro a ha b hb
  exact hForward.forall_of_forall_of_flip hRefl hBackward ha hb

end Numbered

/-! ## Logs with gaps -/

/-- Numbers increase along the log; some may be missing. -/
def Increasing {α : Type} (number : α → Nat) (log : List α) : Prop :=
  log.Pairwise fun a b => number a < number b

namespace Increasing

variable {α : Type} {number : α → Nat} {log : List α}

theorem concat (h : Increasing number log) {a : α}
    (hLast : ∀ b ∈ log, number b < number a) :
    Increasing number (log ++ [a]) := by
  unfold Increasing
  rw [List.pairwise_append]
  refine ⟨h, List.pairwise_singleton _ a, ?_⟩
  intro b hb c hc
  rw [List.mem_singleton] at hc
  exact hc ▸ hLast b hb

/-- An increasing log is determined by its entries: there is one order for
them. -/
theorem eq_of_mem_iff {log' : List α} (h : Increasing number log)
    (h' : Increasing number log') (hMem : ∀ a, a ∈ log ↔ a ∈ log') :
    log = log' := by
  have hNodup : log.Nodup := h.imp fun hLt hEq => by
    rw [hEq] at hLt
    exact Nat.lt_irrefl _ hLt
  have hNodup' : log'.Nodup := h'.imp fun hLt hEq => by
    rw [hEq] at hLt
    exact Nat.lt_irrefl _ hLt
  have hPerm := (List.perm_ext_iff_of_nodup hNodup hNodup').mpr hMem
  exact hPerm.eq_of_pairwise
    (fun a b _ _ hLt hGt => absurd hGt (Nat.lt_asymm hLt)) h h'

/-- Numbers between `lo` and `hi` leave room for so many entries. -/
theorem length_le (h : Increasing number log) {lo hi : Nat}
    (hLow : ∀ a ∈ log, lo < number a) (hHigh : ∀ a ∈ log, number a ≤ hi) :
    log.length ≤ hi - lo := by
  induction log generalizing lo with
  | nil => exact Nat.zero_le _
  | cons a log ih =>
      obtain ⟨hHead, hTail⟩ := List.pairwise_cons.mp h
      have hFirst := hLow a (by simp)
      have hBelow := hHigh a (by simp)
      have hRest := ih hTail hHead fun b hb => hHigh b (by simp [hb])
      rw [List.length_cons]
      omega

/-- A log as long as the range of its numbers has no gap. -/
theorem exists_of_length (h : Increasing number log) {lo hi : Nat}
    (hLow : ∀ a ∈ log, lo < number a) (hHigh : ∀ a ∈ log, number a ≤ hi)
    (hFull : log.length = hi - lo) {k : Nat} (hk : lo < k) (hk' : k ≤ hi) :
    ∃ a ∈ log, number a = k := by
  induction log generalizing lo with
  | nil =>
      rw [List.length_nil] at hFull
      omega
  | cons a log ih =>
      obtain ⟨hHead, hTail⟩ := List.pairwise_cons.mp h
      have hFirst := hLow a (by simp)
      have hBelow := hHigh a (by simp)
      have hUpper : ∀ b ∈ log, number b ≤ hi := fun b hb => hHigh b (by simp [hb])
      have hRest := length_le hTail hHead hUpper
      rw [List.length_cons] at hFull
      -- no room is left below the first number
      have hNext : number a = lo + 1 := by omega
      by_cases hEq : k = number a
      · exact ⟨a, by simp, hEq.symm⟩
      · obtain ⟨b, hb, hbk⟩ := ih hTail hHead hUpper (by omega) (by omega)
        exact ⟨b, by simp [hb], hbk⟩

/-- The entries up to `k + 1` are those up to `k` and the one numbered
`k + 1`, if there is one. -/
theorem filter_le_succ (h : Increasing number log) (k : Nat) :
    log.filter (fun a => number a ≤ k + 1) =
      log.filter (fun a => number a ≤ k) ++
        log.filter fun a => number a = k + 1 := by
  induction log with
  | nil => rfl
  | cons a log ih =>
      obtain ⟨hHead, hTail⟩ := List.pairwise_cons.mp h
      have hRest := ih hTail
      rcases Nat.lt_trichotomy (number a) (k + 1) with hLt | hEq | hGt
      · have hLe : number a ≤ k := by omega
        have hLe' : number a ≤ k + 1 := by omega
        have hNe : ¬number a = k + 1 := by omega
        simp [hLe, hLe', hNe, hRest]
      · -- nothing up to `k + 1` follows
        have hNone : log.filter (fun b => number b ≤ k + 1) = [] := by
          rw [List.filter_eq_nil_iff]
          intro b hb
          have hLt := hHead b hb
          simp only [decide_eq_true_eq]
          omega
        rw [hNone] at hRest
        obtain ⟨hBelow, hEqual⟩ := List.append_eq_nil_iff.mp hRest.symm
        simp [hEq, hNone, hBelow, hEqual]
      · have hLe : ¬number a ≤ k := by omega
        have hLe' : ¬number a ≤ k + 1 := by omega
        have hNe : ¬number a = k + 1 := by omega
        simp [hLe, hLe', hNe, hRest]

theorem filter_eq_singleton (h : Increasing number log) {a : α} (ha : a ∈ log) :
    log.filter (fun b => number b = number a) = [a] := by
  induction log with
  | nil => cases ha
  | cons b log ih =>
      obtain ⟨hHead, hTail⟩ := List.pairwise_cons.mp h
      rcases List.mem_cons.mp ha with rfl | hMem
      · have hNone : ∀ c ∈ log, ¬number c = number a := by
          intro c hc
          have hLt := hHead c hc
          omega
        simpa [List.filter_eq_nil_iff] using hNone
      · have hLt := hHead a hMem
        have hNe : ¬number b = number a := by omega
        simp [hNe, ih hTail hMem]

end Increasing

end ForgePass.Verified
