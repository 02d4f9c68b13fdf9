import ForgePass.Verified.Machine
import ForgePass.Verified.Storage

/-!
# Inputs that change nothing

An input is *still* in a state that it leaves as it is.  A run may be padded
with inputs that do not belong to it: duplicates, late retries, hostile calls.
At every point it is where it would be without them exactly if each of them is
still where it arrives (`padded_run_iff`).
-/

namespace ForgePass.Verified.Machine

variable {σ ι ρ : Type} (m : Machine σ ι ρ)

/-- The input leaves the state as it is, whatever it is answered. -/
def Still (s : σ) (i : ι) : Prop := (m.step s i).2 = s

/-- The inputs that belong to a padded run, which are marked `true`. -/
def genuine (cs : List (Bool × ι)) : List ι := (cs.filter Prod.fst).map Prod.snd

/-- All inputs of a padded run. -/
def arriving (cs : List (Bool × ι)) : List ι := cs.map Prod.snd

/-- Where they arrive, all inputs that do not belong to the run are still.
Where they arrive is where the genuine inputs before them lead. -/
def PadsStill (cs : List (Bool × ι)) : Prop :=
  ∀ p i, p ++ [(false, i)] <+: cs → m.Still (m.run (genuine p)) i

theorem genuine_concat_true (cs : List (Bool × ι)) (i : ι) :
    genuine (cs ++ [(true, i)]) = genuine cs ++ [i] := by
  simp [genuine]

theorem genuine_concat_false (cs : List (Bool × ι)) (i : ι) :
    genuine (cs ++ [(false, i)]) = genuine cs := by
  simp [genuine]

theorem arriving_concat (cs : List (Bool × ι)) (c : Bool × ι) :
    arriving (cs ++ [c]) = arriving cs ++ [c.2] := List.map_append

variable {m}

theorem PadsStill.run_eq {cs : List (Bool × ι)} (h : m.PadsStill cs) :
    m.run (arriving cs) = m.run (genuine cs) := by
  induction cs using List.reverseRecOn with
  | nil => rfl
  | append_singleton cs c ih =>
      have hBefore := ih fun p i hp => h p i (hp.trans (List.prefix_append cs [c]))
      obtain ⟨mark, i⟩ := c
      rw [arriving_concat, m.run_concat, hBefore]
      cases mark with
      | true => rw [genuine_concat_true, m.run_concat]
      | false =>
          rw [genuine_concat_false]
          exact h cs i (List.prefix_refl _)

variable (m)

/-- **Padding.**  At every point a padded run is where the run would be without
its padding, if and only if all padding is still where it arrives. -/
theorem padded_run_iff (cs : List (Bool × ι)) :
    (∀ p, p <+: cs → m.run (arriving p) = m.run (genuine p)) ↔
      m.PadsStill cs := by
  constructor
  · intro h p i hp
    have hBefore := h p ((List.prefix_append p _).trans hp)
    have hAfter := h _ hp
    rw [arriving_concat, m.run_concat, genuine_concat_false, hBefore] at hAfter
    exact hAfter
  · intro h p hp
    exact PadsStill.run_eq fun q i hq => h q i (hq.trans hp)

/-- A family stands still where the machine stands still that it addresses. -/
theorem still_family_iff {κ : Type} [DecidableEq κ] {F I R : κ → Type}
    {ms : (k : κ) → Machine (F k) (I k) (R k)} (s : (k : κ) → F k) (k : κ)
    (i : I k) : (family ms).Still s ⟨k, i⟩ ↔ (ms k).Still (s k) i := by
  show Function.update s k _ = s ↔ _
  exact Function.update_eq_self_iff

/-- A bootstrap changes storage unless it finds its key taken. -/
theorem bootstrap_still_iff {K : Type} {V : K → Type} [DecidableEq K]
    (s : Ledger K V) (k : K) (v : V k) (refused welcome : ρ) :
    (if (s.instanceTier.get k).isSome then (refused, s)
      else (welcome, s.setInstance k v)).2 = s ↔
        ¬s.instanceTier.get k = none := by
  cases hKey : s.instanceTier.get k with
  | none => simp [Ledger.setInstance_eq_self_iff, hKey]
  | some w => simp

end ForgePass.Verified.Machine
