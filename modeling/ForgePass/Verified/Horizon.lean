import ForgePass.Verified.Refinement

/-!
# How long two machines answer alike

A machine whose answers are bounded numbers can take the same steps as one
whose answers are not, and still say something else once the numbers run out.
`Horizon` collects what has to be known of one step: the states agree, and the
answers agree exactly as long as an invariant holds that is never regained.
The histories of a whole run then agree exactly if the invariant still holds at
its end (`Horizon.history_iff`).

Machines side by side have a horizon if each of them has one, and a
bootstrapped machine has the one of its contents.
-/

namespace ForgePass.Verified

namespace Machine

variable {σ ι ρ ρ' : Type}

/-- `m'` takes the steps of `m`, and its answers are those of `m` seen through
`view` exactly up to where `I` ends. -/
structure Horizon (m : Machine σ ι ρ) (m' : Machine σ ι ρ') (view : ρ → ρ')
    (I : σ → Prop) : Prop where
  start : m'.init = m.init
  within : I m.init
  state : ∀ s i, (m'.step s i).2 = (m.step s i).2
  back : ∀ s i, I (m.step s i).2 → I s
  answer : ∀ s i, I s →
    (view (m.step s i).1 = (m'.step s i).1 ↔ I (m.step s i).2)

namespace Horizon

variable {m : Machine σ ι ρ} {m' : Machine σ ι ρ'} {view : ρ → ρ'}
  {I : σ → Prop}

/-- Whatever they answer, the two machines run through the same states. They
can be compared answer by answer. -/
theorem run_eq (h : Horizon m m' view I) (is : List ι) :
    m'.run is = m.run is := by
  induction is using List.reverseRecOn with
  | nil => exact h.start
  | append_singleton is i ih => rw [run_concat, run_concat, ih, h.state]

/-- The answers of a run were all alike exactly if the invariant holds where
the run ends. -/
theorem history_iff (h : Horizon m m' view I) (is : List ι) :
    (m.history is).map (fun e => (e.1, view e.2)) = m'.history is ↔
      I (m.run is) := by
  induction is using List.reverseRecOn with
  | nil => exact iff_of_true rfl h.within
  | append_singleton is i ih =>
      rw [history_concat, history_concat, run_concat, List.map_append,
        List.map_singleton, List.append_singleton_inj, ih, h.run_eq,
        Prod.mk.injEq]
      constructor
      · rintro ⟨hBefore, -, hLast⟩
        exact (h.answer _ i hBefore).mp hLast
      · intro hAfter
        have hBefore := h.back _ i hAfter
        exact ⟨hBefore, rfl, (h.answer _ i hBefore).mpr hAfter⟩

/-- A machine compared with itself, where there is nothing to run out. -/
theorem refl (m : Machine σ ι ρ) : Horizon m m id fun _ => True where
  start := rfl
  within := trivial
  state _ _ := rfl
  back _ _ _ := trivial
  answer _ _ _ := iff_of_true rfl trivial

end Horizon

/-- Machines side by side answer alike as long as each of them does. -/
theorem Horizon.family {κ : Type} [DecidableEq κ] {F In P P' : κ → Type}
    {ms : (k : κ) → Machine (F k) (In k) (P k)}
    {ms' : (k : κ) → Machine (F k) (In k) (P' k)}
    {view : (k : κ) → P k → P' k} {I : (k : κ) → F k → Prop}
    (h : ∀ k, Horizon (ms k) (ms' k) (view k) (I k)) :
    Horizon (Machine.family ms) (Machine.family ms')
      (fun r => ⟨r.1, view r.1 r.2⟩) (fun s => ∀ k, I k (s k)) where
  start := funext fun k => (h k).start
  within k := (h k).within
  state := by
    rintro s ⟨k, i⟩
    show Function.update s k _ = Function.update s k _
    rw [(h k).state]
  back := by
    rintro s ⟨k, i⟩ hAfter j
    have hj := hAfter j
    by_cases hEq : j = k
    · subst hEq
      apply (h j).back (s j) i
      simpa [Machine.family] using hj
    · simpa [Machine.family, hEq] using hj
  answer := by
    rintro s ⟨k, i⟩ hBefore
    have hHere := (h k).answer (s k) i (hBefore k)
    constructor
    · intro hSame j
      have hSame : view k ((ms k).step (s k) i).1 =
          ((ms' k).step (s k) i).1 :=
        eq_of_heq (Sigma.mk.inj hSame).2
      by_cases hEq : j = k
      · subst hEq
        simpa [Machine.family] using hHere.mp hSame
      · simpa [Machine.family, hEq] using hBefore j
    · intro hAfter
      have hk := hAfter k
      have hSame := hHere.mpr (by simpa [Machine.family] using hk)
      exact congrArg (Sigma.mk k) hSame

section Bootstrap

variable {A X : Type} {install : ι → Option A} {welcome : ρ} {early : ι → ρ}
  {welcome' : ρ'} {early' : ι → ρ'} {blank : X} {operate : A → X → ι → ρ × X}
  {operate' : A → X → ι → ρ' × X} {view : ρ → ρ'} {I : X → Prop}

/-- Before it is installed a machine has no numbers to run out of; afterwards
its contents decide. -/
theorem Horizon.bootstrapped (hWelcome : view welcome = welcome')
    (hEarly : ∀ i, view (early i) = early' i) (hBlank : I blank)
    (hState : ∀ a x i, (operate' a x i).2 = (operate a x i).2)
    (hBack : ∀ a x i, I (operate a x i).2 → I x)
    (hAnswer : ∀ a x i, I x →
      (view (operate a x i).1 = (operate' a x i).1 ↔ I (operate a x i).2)) :
    Horizon (Machine.bootstrapped install welcome early blank operate)
      (Machine.bootstrapped install welcome' early' blank operate') view
      (fun d => I (d.content blank)) where
  start := rfl
  within := hBlank
  state := by
    intro d i
    cases d with
    | fresh =>
        cases hBoot : install i with
        | none => rw [bootstrapped_early hBoot, bootstrapped_early hBoot]
        | some a => rw [bootstrapped_install hBoot, bootstrapped_install hBoot]
    | installed a x =>
        exact congrArg (Deployment.installed a) (hState a x i)
  back := by
    intro d i hAfter
    cases d with
    | fresh => exact hBlank
    | installed a x => exact hBack a x i hAfter
  answer := by
    intro d i hBefore
    cases d with
    | fresh =>
        cases hBoot : install i with
        | none =>
            rw [bootstrapped_early hBoot, bootstrapped_early hBoot]
            exact iff_of_true (hEarly i) hBlank
        | some a =>
            rw [bootstrapped_install hBoot, bootstrapped_install hBoot]
            exact iff_of_true hWelcome hBlank
    | installed a x => exact hAnswer a x i hBefore

end Bootstrap

end Machine

end ForgePass.Verified
