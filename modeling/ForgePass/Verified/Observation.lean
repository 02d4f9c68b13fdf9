import ForgePass.Verified.Contract
import ForgePass.Verified.Simulation

/-!
# What callers and readers can tell apart

Two states are *indistinguishable* if no sequence of inputs gets different
answers from them or ends where readers differ.  A relation that every input
keeps, with equal answers, and that readers do not see through shows states
indistinguishable; to tell states apart it is enough to find one input that is
answered differently.

The administrator of a guarded contract has no reader.  It is seen all the
same: a call that the stored administrator must authorise, made by one address
alone, traps unless that address is the administrator.
-/

namespace ForgePass.Verified

namespace Machine

variable {σ ι ρ : Type} {m : Machine σ ι ρ} {same : σ → σ → Prop} {s s' : σ}

/-- No inputs tell the states apart, by an answer or by what readers, compared
by `same`, return afterwards. -/
def Indistinguishable (m : Machine σ ι ρ) (same : σ → σ → Prop) (s s' : σ) :
    Prop :=
  ∀ cs, m.historyFrom s cs = m.historyFrom s' cs ∧
    same (m.runFrom s cs) (m.runFrom s' cs)

theorem Indistinguishable.reads (h : m.Indistinguishable same s s') :
    same s s' := (h []).2

theorem Indistinguishable.answer (h : m.Indistinguishable same s s') (i : ι) :
    (m.step s i).1 = (m.step s' i).1 := by
  have hOne := (h [i]).1
  simp only [historyFrom, List.cons.injEq, Prod.mk.injEq] at hOne
  exact hOne.1.2

/-- Coinduction: a relation that inputs keep, with equal answers, relates only
states that cannot be told apart. -/
theorem indistinguishable_of_kept {R : σ → σ → Prop}
    (hSame : ∀ s s', R s s' → same s s')
    (hStep : ∀ s s' i, R s s' → Related Eq R (m.step s i) (m.step s' i))
    (h : R s s') : m.Indistinguishable same s s' := by
  intro cs
  induction cs generalizing s s' with
  | nil => exact ⟨rfl, hSame s s' h⟩
  | cons i cs ih =>
      have hNext := hStep s s' i h
      obtain ⟨hHistory, hFinal⟩ := ih hNext.state
      refine ⟨?_, hFinal⟩
      show (i, (m.step s i).1) :: _ = (i, (m.step s' i).1) :: _
      rw [hNext.answer, hHistory]

end Machine

section Probe

variable {A σ ι E R : Type} [DecidableEq A]

/-- In state `s` the calls `probe`, each made by one address alone, fail for
want of that administrator or for reasons of their own.  `missing` is the error
without an administrator. -/
def Probes (m : Machine σ ι (Except (Failure E) R)) (admin : σ → Option A)
    (missing : E) (probe : A → ι) (s : σ) : Prop :=
  ∀ a, ∃ own : Option E, own ≠ some missing ∧
    failureOf (m.step s (probe a)).1 =
      adminFailure missing (admin s) ⟨{a}, 0⟩ own

variable {m : Machine σ ι (Except (Failure E) R)} {admin : σ → Option A}
  {missing : E} {probe : A → ι} {s s' : σ}

/-- Without an administrator the probe says so, and only then. -/
theorem Probes.none_iff (h : Probes m admin missing probe s) (a : A) :
    failureOf (m.step s (probe a)).1 = some (.error missing) ↔
      admin s = none := by
  obtain ⟨own, hNe, hOwn⟩ := h a
  rw [hOwn]
  cases admin s with
  | none => simp [adminFailure]
  | some b =>
      by_cases hb : b = a
      · cases own with
        | none => simp [adminFailure, hb]
        | some e =>
            have hOther : e ≠ missing := fun hEq => hNe (congrArg some hEq)
            simp [adminFailure, hb, hOther]
      · simp [adminFailure, hb]

/-- An administrator's own probe is not trapped, and nobody else's passes. -/
theorem Probes.trap_iff (h : Probes m admin missing probe s) {b : A}
    (hb : admin s = some b) (a : A) :
    failureOf (m.step s (probe a)).1 = some .trap ↔ b ≠ a := by
  obtain ⟨own, -, hOwn⟩ := h a
  rw [hOwn, hb]
  by_cases hEq : b = a
  · cases own with
    | none => simp [adminFailure, hEq]
    | some e => simp [adminFailure, hEq]
  · simp [adminFailure, hEq]

/-- Administrators are told apart by their probes. -/
theorem Probes.admin_eq (h : Probes m admin missing probe s)
    (h' : Probes m admin missing probe s')
    (hAnswers : ∀ i, (m.step s i).1 = (m.step s' i).1) :
    admin s = admin s' := by
  have hNone : ∀ a : A, admin s = none ↔ admin s' = none := by
    intro a
    rw [← h.none_iff a, ← h'.none_iff a, hAnswers]
  cases hs : admin s with
  | none =>
      cases hs' : admin s' with
      | none => rfl
      | some b =>
          rw [(hNone b).mp hs] at hs'
          cases hs'
  | some a =>
      cases hs' : admin s' with
      | none =>
          rw [(hNone a).mpr hs'] at hs
          cases hs
      | some b =>
          have hBoth : a ≠ a ↔ b ≠ a := by
            rw [← h.trap_iff hs, ← h'.trap_iff hs', hAnswers]
          by_contra hNe
          exact hBoth.mpr (fun hEq => hNe (congrArg some hEq.symm)) rfl

end Probe

end ForgePass.Verified
