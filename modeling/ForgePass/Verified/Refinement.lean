import ForgePass.Verified.Evolution
import ForgePass.Verified.Simulation

/-!
# Refinement

A machine *refines* another one if it gives every input the same answer and
keeps a relation with it.  The inputs may have to be allowed in the states they
meet, for a machine of bounded numbers that follows one of unbounded ones.
Machines side by side refine machines side by side (`Refines.family`).

`bootstrapped` is the shape that the abstract side of a contract has: nothing
works before the installing call, which works once, and afterwards calls
operate on the contents under the administrator's eye.
-/

namespace ForgePass.Verified

namespace Machine

variable {σ σ' ι ρ : Type}

/-- `m` answers as `m'` does, in related states, as long as `ok` allows the
inputs. -/
structure Refines (m : Machine σ ι ρ) (m' : Machine σ' ι ρ)
    (ok : σ → ι → Prop) (R : σ → σ' → Prop) : Prop where
  start : R m.init m'.init
  step : ∀ s s' i, ok s i → R s s' →
    Related Eq R (m.step s i) (m'.step s' i)

namespace Refines

variable {m : Machine σ ι ρ} {m' : Machine σ' ι ρ} {ok : σ → ι → Prop}
  {R : σ → σ' → Prop}

/-- Runs of allowed inputs end in related states, with one history. This is the
refinement of runs by that of single steps. -/
theorem run_history (h : Refines m m' ok R) {is : List ι}
    (hOk : m.Each ok is) :
    R (m.run is) (m'.run is) ∧ m.history is = m'.history is := by
  induction is using List.reverseRecOn with
  | nil => exact ⟨h.start, rfl⟩
  | append_singleton is i ih =>
      rw [m.each_concat] at hOk
      obtain ⟨hRun, hHistory⟩ := ih hOk.1
      have hStep := h.step _ _ i hOk.2 hRun
      rw [m.run_concat, m'.run_concat, m.history_concat, m'.history_concat,
        hHistory, hStep.answer]
      exact ⟨hStep.state, rfl⟩

end Refines

/-- Machines that take the same steps where `I` holds run alike as far as it
does, if no step leads back into it. -/
theorem run_history_eq {m m' : Machine σ ι ρ} {I : σ → Prop}
    (hInit : m'.init = m.init) (hBack : ∀ s i, I (m.step s i).2 → I s)
    (hStep : ∀ s i, I s → m'.step s i = m.step s i) {is : List ι}
    (h : I (m.run is)) :
    m'.run is = m.run is ∧ m'.history is = m.history is := by
  induction is using List.reverseRecOn with
  | nil => exact ⟨hInit, rfl⟩
  | append_singleton is i ih =>
      rw [m.run_concat] at h
      have hBefore := hBack _ i h
      obtain ⟨hRun, hHistory⟩ := ih hBefore
      rw [m.run_concat, m'.run_concat, m.history_concat, m'.history_concat,
        hRun, hHistory, hStep _ i hBefore]
      exact ⟨rfl, rfl⟩

/-- Only the machine that an input addresses counts. -/
theorem family_step_congr {κ : Type} [DecidableEq κ] {F I P : κ → Type}
    {ms ms' : (k : κ) → Machine (F k) (I k) (P k)} {s : (k : κ) → F k} {k : κ}
    {i : I k} (h : (ms' k).step (s k) i = (ms k).step (s k) i) :
    (family ms').step s ⟨k, i⟩ = (family ms).step s ⟨k, i⟩ := by
  simp only [family, h]

/-- A step of one machine of a family, followed by the machine in its place. -/
theorem Related.family {κ : Type} [DecidableEq κ] {F F' I I' P : κ → Type}
    {ms : (k : κ) → Machine (F k) (I k) (P k)}
    {ms' : (k : κ) → Machine (F' k) (I' k) (P k)}
    {R : (k : κ) → F k → F' k → Prop} {s : (k : κ) → F k} {s' : (k : κ) → F' k}
    (hR : ∀ k, R k (s k) (s' k)) {k : κ} {i : I k} {i' : I' k}
    (hStep : Related Eq (R k) ((ms k).step (s k) i) ((ms' k).step (s' k) i')) :
    Related Eq (fun s s' => ∀ k, R k (s k) (s' k))
      ((Machine.family ms).step s ⟨k, i⟩)
      ((Machine.family ms').step s' ⟨k, i'⟩) where
  answer := by
    show (⟨k, _⟩ : Σ k, P k) = ⟨k, _⟩
    rw [hStep.answer]
  state j := by
    show R j (Function.update s k _ j) (Function.update s' k _ j)
    by_cases hj : j = k
    · subst hj
      rw [Function.update_self, Function.update_self]
      exact hStep.state
    · rw [Function.update_of_ne hj, Function.update_of_ne hj]
      exact hR j

/-- Componentwise refinement. -/
theorem Refines.family {κ : Type} [DecidableEq κ] {F F' I P : κ → Type}
    {ms : (k : κ) → Machine (F k) (I k) (P k)}
    {ms' : (k : κ) → Machine (F' k) (I k) (P k)}
    {ok : (k : κ) → F k → I k → Prop} {R : (k : κ) → F k → F' k → Prop}
    (h : ∀ k, Refines (ms k) (ms' k) (ok k) (R k)) :
    Refines (Machine.family ms) (Machine.family ms')
      (fun s i => ok i.1 (s i.1) i.2) (fun s s' => ∀ k, R k (s k) (s' k)) where
  start k := (h k).start
  step := by
    rintro s s' ⟨k, i⟩ hOk hR
    exact .family hR ((h k).step (s k) (s' k) i hOk (hR k))

/-! ## Contracts behind a bootstrap -/

variable {A X : Type}

/-- The machine that the installing call starts, with contents `blank`; calls
that come `early` change nothing. -/
def bootstrapped (install : ι → Option A) (welcome : ρ) (early : ι → ρ)
    (blank : X) (operate : A → X → ι → ρ × X) :
    Machine (Deployment A X) ι ρ where
  init := .fresh
  step
    | .fresh, i =>
        match install i with
        | some a => (welcome, .installed a blank)
        | none => (early i, .fresh)
    | .installed a x, i =>
        ((operate a x i).1, .installed a (operate a x i).2)

section Bootstrap

variable {install : ι → Option A} {welcome : ρ} {early : ι → ρ} {blank : X}
  {operate : A → X → ι → ρ × X}

theorem bootstrapped_early {i : ι} (h : install i = none) :
    (bootstrapped install welcome early blank operate).step .fresh i =
      (early i, .fresh) := by
  simp [bootstrapped, h]

theorem bootstrapped_install {i : ι} {a : A} (h : install i = some a) :
    (bootstrapped install welcome early blank operate).step .fresh i =
      (welcome, .installed a blank) := by
  simp [bootstrapped, h]

/-- The state is the fresh one, or an installed one that stands for the
contents. -/
def Stands (fresh : σ) (Q : A → σ → X → Prop) : σ → Deployment A X → Prop
  | s, .fresh => s = fresh
  | s, .installed a x => Q a s x

theorem Refines.bootstrapped {m : Machine σ ι ρ} {ok : σ → ι → Prop}
    {Q : A → σ → X → Prop}
    (hEarly : ∀ i, install i = none → m.step m.init i = (early i, m.init))
    (hInstall : ∀ i a, install i = some a →
      (m.step m.init i).1 = welcome ∧ Q a (m.step m.init i).2 blank)
    (hOperate : ∀ a s x i, ok s i → Q a s x →
      Related Eq (Q a) (m.step s i) (operate a x i)) :
    Refines m (Machine.bootstrapped install welcome early blank operate) ok
      (Stands m.init Q) where
  start := rfl
  step := by
    intro s d i hOk hStands
    cases d with
    | fresh =>
        obtain rfl : s = m.init := hStands
        cases hBoot : install i with
        | none =>
            rw [hEarly i hBoot, bootstrapped_early hBoot]
            exact ⟨rfl, rfl⟩
        | some a =>
            rw [bootstrapped_install hBoot]
            exact ⟨(hInstall i a hBoot).1, (hInstall i a hBoot).2⟩
    | installed a x =>
        have hNext := hOperate a s x i hOk hStands
        exact ⟨hNext.answer, hNext.state⟩

end Bootstrap

end Machine

end ForgePass.Verified
