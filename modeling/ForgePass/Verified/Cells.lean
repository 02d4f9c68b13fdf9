import ForgePass.Verified.Interleaving
import Mathlib.Logic.Function.Basic

/-!
# Machines that work cell by cell

Storage often consists of cells, one for each client, and an input has to do
with the cell of one client only.  `Celled` says so of a machine: its states
are assembled from cells, an input that is let in is one operation on its cell,
and any other changes nothing.

Such a machine leaves little to interfere.  Inputs commute unless both are let
in, they address one cell, and their operations do not commute there
(`Celled.commutes_iff`).  The same holds one level up, for machines that share
nothing at all (`family_commutes_of_ne`, `family_commutes_self_iff`).
-/

namespace ForgePass.Verified

namespace Machine

variable {σ ι ρ κ F ω : Type} [DecidableEq κ]

/-- In the states that `assemble` makes of cells, the machine does the
operation `op i`, as the machine `part` does it, on the cell of `i`. -/
structure Celled (m : Machine σ ι ρ) (cell : ι → κ) (op : ι → Option ω)
    (part : Machine F ω ρ) (assemble : (κ → F) → σ) : Prop where
  injective : Function.Injective assemble
  idle : ∀ i, op i = none → ∃ r, ∀ f, m.step (assemble f) i = (r, assemble f)
  acts : ∀ i o, op i = some o → ∀ f,
    m.step (assemble f) i =
      ((part.step (f (cell i)) o).1, assemble
        (Function.update f (cell i) (part.step (f (cell i)) o).2))

namespace Celled

variable {m : Machine σ ι ρ} {cell : ι → κ} {op : ι → Option ω}
  {part : Machine F ω ρ} {assemble : (κ → F) → σ} {i j : ι} {o o' : ω}

theorem step_assemble (h : Celled m cell op part assemble) (f : κ → F)
    (i : ι) : ∃ g, (m.step (assemble f) i).2 = assemble g := by
  cases hOp : op i with
  | none =>
      obtain ⟨r, hIdle⟩ := h.idle i hOp
      exact ⟨f, congrArg Prod.snd (hIdle f)⟩
  | some o => exact ⟨_, congrArg Prod.snd (h.acts i o hOp f)⟩

/-- An input that is not let in commutes with every other. -/
theorem commutes_of_idle (h : Celled m cell op part assemble) (f : κ → F)
    (hOp : op i = none) (j : ι) : m.Commutes (assemble f) i j := by
  obtain ⟨r, hIdle⟩ := h.idle i hOp
  obtain ⟨g, hStep⟩ := h.step_assemble f j
  apply Commutes.of_idle
  · rw [hIdle]
  · rw [hStep, hIdle, hIdle]

theorem commutes_of_ne (h : Celled m cell op part assemble) (f : κ → F)
    (hi : op i = some o) (hj : op j = some o') (hCell : cell i ≠ cell j) :
    m.Commutes (assemble f) i j := by
  constructor
  · rw [h.acts j o' hj, h.acts i o hi, h.acts i o hi]
    rw [Function.update_of_ne hCell]
  · rw [h.acts i o hi, h.acts j o' hj, h.acts j o' hj]
    rw [Function.update_of_ne hCell.symm]
  · rw [h.acts i o hi, h.acts j o' hj, h.acts j o' hj, h.acts i o hi]
    rw [Function.update_of_ne hCell, Function.update_of_ne hCell.symm]
    rw [Function.update_comm hCell]

theorem commutes_of_eq_iff (h : Celled m cell op part assemble) (f : κ → F)
    (hi : op i = some o) (hj : op j = some o') (hCell : cell i = cell j) :
    m.Commutes (assemble f) i j ↔ part.Commutes (f (cell i)) o o' := by
  have hFirst : m.step (m.step (assemble f) j).2 i =
      ((part.step (part.step (f (cell i)) o').2 o).1, assemble
        (Function.update f (cell i)
          (part.step (part.step (f (cell i)) o').2 o).2)) := by
    rw [h.acts j o' hj, ← hCell, h.acts i o hi, Function.update_self,
      Function.update_idem]
  have hSecond : m.step (m.step (assemble f) i).2 j =
      ((part.step (part.step (f (cell i)) o).2 o').1, assemble
        (Function.update f (cell i)
          (part.step (part.step (f (cell i)) o).2 o').2)) := by
    rw [h.acts i o hi, h.acts j o' hj, ← hCell, Function.update_self,
      Function.update_idem]
  have hAlone := h.acts i o hi f
  have hAlone' := h.acts j o' hj f
  rw [← hCell] at hAlone'
  constructor
  · rintro ⟨hAnswer, hAnswer', hState⟩
    rw [hFirst, hAlone] at hAnswer
    rw [hSecond, hAlone'] at hAnswer'
    rw [hFirst, hSecond] at hState
    exact ⟨hAnswer, hAnswer',
      Function.update_injective f (cell i) (h.injective hState)⟩
  · intro hPart
    constructor
    · rw [hFirst, hAlone]
      exact hPart.first
    · rw [hSecond, hAlone']
      exact hPart.second
    · rw [hFirst, hSecond, hPart.state]

/-- **Interference in one cell.** Two inputs commute exactly if they address
different cells, are not let in, or act commutingly on the one cell. -/
theorem commutes_iff (h : Celled m cell op part assemble) (f : κ → F)
    (i j : ι) :
    m.Commutes (assemble f) i j ↔
      ∀ o o', op i = some o → op j = some o' → cell i = cell j →
        part.Commutes (f (cell i)) o o' := by
  cases hi : op i with
  | none =>
      have hCommutes := h.commutes_of_idle f hi j
      simp [hCommutes]
  | some o =>
      cases hj : op j with
      | none =>
          have hCommutes := (h.commutes_of_idle f hj i).symm
          simp [hCommutes]
      | some o' =>
          simp only [Option.some.injEq]
          by_cases hCell : cell i = cell j
          · rw [h.commutes_of_eq_iff f hi hj hCell]
            simp [hCell]
          · have hCommutes := h.commutes_of_ne f hi hj hCell
            simp [hCommutes, hCell]

end Celled

/-! ## Machines side by side -/

variable {G I R : κ → Type} {ms : (k : κ) → Machine (G k) (I k) (R k)}

/-- Inputs of different machines commute. -/
theorem family_commutes_of_ne (s : (k : κ) → G k) {i j : Σ k, I k}
    (h : i.1 ≠ j.1) : (family ms).Commutes s i j := by
  constructor
  · simp [family, h]
  · simp [family, h.symm]
  · simp [family, h, h.symm, Function.update_comm h]

/-- Inputs of one machine commute in the family if they do in the machine. -/
theorem family_commutes_self_iff (s : (k : κ) → G k) {k : κ} (i j : I k) :
    (family ms).Commutes s ⟨k, i⟩ ⟨k, j⟩ ↔ (ms k).Commutes (s k) i j := by
  constructor
  · rintro ⟨hFirst, hSecond, hState⟩
    simp only [family, Function.update_self, Sigma.mk.injEq, heq_eq_eq,
      true_and, Function.update_idem] at hFirst hSecond hState
    exact ⟨hFirst, hSecond, Function.update_injective s k hState⟩
  · rintro ⟨hFirst, hSecond, hState⟩
    constructor
    · simp [family, hFirst]
    · simp [family, hSecond]
    · simp [family, hState]

end Machine

end ForgePass.Verified
