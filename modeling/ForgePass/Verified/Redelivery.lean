import ForgePass.Verified.Machine

/-!
# Inputs delivered more than once

A sender that does not know whether its input arrived sends it again.  A list
of inputs *stutters* another one if it has each of its inputs once or several
times in a row.  A machine stays on course under every stuttering exactly if
each input is *idempotent* in the state that it meets (`stutters_run_iff`).
-/

namespace ForgePass.Verified.Machine

variable {σ ι ρ : Type}

/-- Every input of the first list, once or several times in a row. No input is
lost, and none overtakes another. -/
inductive Stutters : List ι → List ι → Prop
  | nil : Stutters [] []
  | once {is js : List ι} (h : Stutters is js) (i : ι) :
      Stutters (is ++ [i]) (js ++ [i])
  | again {is js : List ι} {i : ι} (h : Stutters (is ++ [i]) js) :
      Stutters (is ++ [i]) (js ++ [i])

theorem Stutters.refl (is : List ι) : Stutters is is := by
  induction is using List.reverseRecOn with
  | nil => exact .nil
  | append_singleton is i ih => exact .once ih i

variable (m : Machine σ ι ρ)

/-- The same input, met again, changes nothing. Its answer may differ: it may
be refused the second time. -/
def Idempotent (s : σ) (i : ι) : Prop :=
  (m.step (m.step s i).2 i).2 = (m.step s i).2

variable {m}

theorem Idempotent.of_still {s : σ} {i : ι} (h : (m.step s i).2 = s) :
    m.Idempotent s i := by
  unfold Idempotent
  rw [h, h]

theorem Stutters.run_eq {is js : List ι} (h : Stutters is js)
    (hEach : m.Each m.Idempotent is) : m.run js = m.run is := by
  induction h with
  | nil => rfl
  | once _ i ih =>
      rw [m.each_concat] at hEach
      rw [m.run_concat, m.run_concat, ih hEach.1]
  | again _ ih =>
      rw [m.run_concat, ih hEach, m.run_concat]
      exact (m.each_concat.mp hEach).2

variable (m)

/-- **Delivery more than once.**  All along a run, stuttering leads to the same
states, if and only if each input is idempotent in the state that it meets. -/
theorem stutters_run_iff (is : List ι) :
    (∀ p q, p <+: is → Stutters p q → m.run q = m.run p) ↔
      m.Each m.Idempotent is := by
  constructor
  · intro h
    rw [m.each_iff]
    intro p i hp
    have hTwice := h (p ++ [i]) (p ++ [i] ++ [i]) hp (.again (.refl _))
    rw [m.run_concat, m.run_concat] at hTwice
    exact hTwice
  · intro hEach p q hp hStutters
    exact hStutters.run_eq (hEach.earlier hp)

/-! ## Machines side by side -/

section Family

variable {κ : Type} [DecidableEq κ] {F I R : κ → Type}
  {ms : (k : κ) → Machine (F k) (I k) (R k)}

theorem idempotent_family_iff (s : (k : κ) → F k) (k : κ) (i : I k) :
    (family ms).Idempotent s ⟨k, i⟩ ↔ (ms k).Idempotent (s k) i := by
  show Function.update (Function.update s k ((ms k).step (s k) i).2) k
      ((ms k).step (Function.update s k ((ms k).step (s k) i).2 k) i).2 =
    Function.update s k ((ms k).step (s k) i).2 ↔ _
  rw [Function.update_self, Function.update_idem]
  exact Function.update_injective s k |>.eq_iff

end Family

end ForgePass.Verified.Machine
