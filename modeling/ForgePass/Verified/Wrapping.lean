import ForgePass.Verified.Machine

/-!
# Counters that wrap

A counter of fixed width that a call takes one step up counts the calls that
used it, modulo its size.  Whether it ever wrapped can then be told from the
history of a run alone: by counting (`each_roomy_iff`).
-/

namespace ForgePass.Verified.Machine

variable {σ ι ρ κ : Type}

/-- Every call that uses counter `k`, as its answer tells, takes it one step
up, and no other call moves it. -/
structure Counts (m : Machine σ ι ρ) (uses : κ → ι × ρ → Bool)
    (counter : κ → σ → Nat) (size : κ → Nat) : Prop where
  start : ∀ k, counter k m.init = 0
  step : ∀ k s i, counter k (m.step s i).2 =
    if uses k (i, (m.step s i).1) then (counter k s + 1) % size k
    else counter k s
  positive : ∀ k, 0 < size k

/-- The counters that the call uses are below their maximum. Which ones it uses
may depend on its answer. -/
def Roomy (m : Machine σ ι ρ) (uses : κ → ι × ρ → Bool)
    (counter : κ → σ → Nat) (size : κ → Nat) (s : σ) (i : ι) : Prop :=
  ∀ k, uses k (i, (m.step s i).1) = true → counter k s + 1 < size k

/-- How many calls of a run used the counter. This number does not wrap. -/
def used (m : Machine σ ι ρ) (uses : κ → ι × ρ → Bool) (k : κ)
    (is : List ι) : Nat := (m.history is).countP (uses k)

section Used

variable (m : Machine σ ι ρ) (uses : κ → ι × ρ → Bool) (k : κ)

@[simp] theorem used_nil : m.used uses k [] = 0 := rfl

theorem used_concat (is : List ι) (i : ι) :
    m.used uses k (is ++ [i]) = m.used uses k is +
      if uses k (i, (m.step (m.run is) i).1) then 1 else 0 := by
  unfold used
  rw [m.history_concat, List.countP_append, List.countP_singleton]

theorem used_le_length (is : List ι) : m.used uses k is ≤ is.length := by
  induction is using List.reverseRecOn with
  | nil => exact Nat.le_refl 0
  | append_singleton is i ih =>
      rw [used_concat, List.length_append, List.length_singleton]
      by_cases hUses : uses k (i, (m.step (m.run is) i).1) = true
      · rw [if_pos hUses]
        omega
      · rw [if_neg hUses]
        omega

end Used

namespace Counts

variable {m : Machine σ ι ρ} {uses : κ → ι × ρ → Bool}
  {counter : κ → σ → Nat} {size : κ → Nat}

/-- Whether it wrapped or not, a counter tells the number of calls that used
it. -/
theorem counter_run (h : Counts m uses counter size) (k : κ) (is : List ι) :
    counter k (m.run is) = m.used uses k is % size k := by
  induction is using List.reverseRecOn with
  | nil => rw [run_nil, h.start, used_nil, Nat.zero_mod]
  | append_singleton is i ih =>
      rw [run_concat, h.step, used_concat, ih]
      by_cases hUses : uses k (i, (m.step (m.run is) i).1) = true
      · rw [if_pos hUses, if_pos hUses, Nat.mod_add_mod]
      · rw [if_neg hUses, if_neg hUses, Nat.add_zero]

/-- All calls of a run find room if and only if no counter is used as often as
it has values. -/
theorem each_roomy_iff (h : Counts m uses counter size) (is : List ι) :
    m.Each (m.Roomy uses counter size) is ↔
      ∀ k, m.used uses k is < size k := by
  induction is using List.reverseRecOn with
  | nil => simp [h.positive]
  | append_singleton is i ih =>
      rw [each_concat, ih]
      constructor
      · rintro ⟨hBefore, hLast⟩ k
        have hCounter := h.counter_run k is
        rw [Nat.mod_eq_of_lt (hBefore k)] at hCounter
        rw [used_concat]
        by_cases hUses : uses k (i, (m.step (m.run is) i).1) = true
        · have hBelow := hLast k hUses
          rw [if_pos hUses]
          omega
        · rw [if_neg hUses]
          exact hBefore k
      · intro hAll
        have hBefore : ∀ k, m.used uses k is < size k := by
          intro k
          have hK := hAll k
          rw [used_concat] at hK
          omega
        refine ⟨hBefore, fun k hUses => ?_⟩
        have hK := hAll k
        rw [used_concat, if_pos hUses] at hK
        rw [h.counter_run, Nat.mod_eq_of_lt (hBefore k)]
        exact hK

/-- A run of fewer calls than any counter has values finds room. -/
theorem each_of_length (h : Counts m uses counter size) {is : List ι}
    (hShort : ∀ k, is.length < size k) :
    m.Each (m.Roomy uses counter size) is := by
  rw [h.each_roomy_iff]
  intro k
  have hUsed := m.used_le_length uses k is
  have hSize := hShort k
  omega

end Counts

/-! ## Counters of machines side by side -/

section Family

variable {κ : Type} [DecidableEq κ] {F I R X : κ → Type}
  {ms : (k : κ) → Machine (F k) (I k) (R k)}

/-- The addressed machine uses its counter. -/
def usesIn (uses : (k : κ) → X k → I k × R k → Bool) (x : Σ k, X k)
    (e : (Σ k, I k) × Σ k, R k) : Bool :=
  match inputFor x.1 e.1, inputFor x.1 e.2 with
  | some i, some r => uses x.1 x.2 (i, r)
  | _, _ => false

variable {uses : (k : κ) → X k → I k × R k → Bool}
  {counter : (k : κ) → X k → F k → Nat} {size : (k : κ) → X k → Nat}

theorem usesIn_self (k : κ) (x : X k) (i : I k) (r : R k) :
    usesIn uses ⟨k, x⟩ (⟨k, i⟩, ⟨k, r⟩) = uses k x (i, r) := by
  simp [usesIn]

theorem usesIn_of_ne {k k' : κ} (hk : k' ≠ k) (x : X k) (i : I k')
    (e : Σ k, R k) : usesIn uses ⟨k, x⟩ (⟨k', i⟩, e) = false := by
  simp [usesIn, inputFor_of_ne hk]

theorem Counts.family
    (h : ∀ k, Counts (ms k) (uses k) (counter k) (size k)) :
    Counts (Machine.family ms) (usesIn uses)
      (fun x s => counter x.1 x.2 (s x.1)) (fun x => size x.1 x.2) where
  start x := (h x.1).start x.2
  step := by
    rintro ⟨k, x⟩ s ⟨k', i⟩
    show counter k x (Function.update s k' _ k) =
      if usesIn uses ⟨k, x⟩ (⟨k', i⟩, ⟨k', ((ms k').step (s k') i).1⟩) then _
      else _
    by_cases hk : k' = k
    · subst hk
      rw [Function.update_self, usesIn_self]
      exact (h k').step x (s k') i
    · rw [Function.update_of_ne (fun hEq => hk hEq.symm), usesIn_of_ne hk]
      rfl
  positive x := (h x.1).positive x.2

theorem roomy_family_iff (s : (k : κ) → F k) (k : κ) (i : I k) :
    (Machine.family ms).Roomy (usesIn uses)
        (fun x s => counter x.1 x.2 (s x.1)) (fun x => size x.1 x.2) s ⟨k, i⟩ ↔
      (ms k).Roomy (uses k) (counter k) (size k) (s k) i := by
  constructor
  · intro h x hUses
    exact h ⟨k, x⟩ ((usesIn_self k x i _).trans hUses)
  · rintro h ⟨k', x⟩ hUses
    by_cases hk : k = k'
    · subst hk
      exact h x ((usesIn_self k x i _).symm.trans hUses)
    · have hNot := (usesIn_of_ne hk x i ⟨k, ((ms k).step (s k) i).1⟩).symm.trans
        hUses
      cases hNot

end Family

end ForgePass.Verified.Machine
