import Mathlib.Data.List.Basic
import Mathlib.Data.List.Induction

/-!
# Renamings between increasing lists

Two lists of one length, each increasing in its own order, name the same
positions: pairing them up is an increasing renaming.  Of the first order only
asymmetry is used.  One renaming of the whole lists serves all their prefixes.
-/

namespace ForgePass.Verified

variable {α β : Type}

theorem exists_renaming [DecidableEq α] [Inhabited β] {r : α → α → Prop}
    {r' : β → β → Prop} (hAsymm : ∀ a b, r a b → ¬r b a) {l : List α}
    {l' : List β} (hl : l.Pairwise r) (hl' : l'.Pairwise r')
    (hLen : l.length = l'.length) :
    ∃ f : α → β, (∀ a ∈ l, ∀ b ∈ l, r a b → r' (f a) (f b)) ∧ l.map f = l' := by
  induction l using List.reverseRecOn generalizing l' with
  | nil =>
      refine ⟨fun _ => default, ?_, (List.length_eq_zero_iff.mp hLen.symm).symm⟩
      intro a ha
      cases ha
  | append_singleton l a ih =>
      obtain rfl | ⟨l', b, rfl⟩ := l'.eq_nil_or_concat'
      · simp at hLen
      rw [List.pairwise_append] at hl hl'
      have hLast (x : α) (hx : x ∈ l) : r x a := hl.2.2 x hx a (by simp)
      have hLast' (y : β) (hy : y ∈ l') : r' y b := hl'.2.2 y hy b (by simp)
      obtain ⟨f, hMono, hMap⟩ := ih hl.1 hl'.1 (by simpa using hLen)
      -- The last elements are paired; the rest is renamed as before.
      have hOld (x : α) (hx : x ∈ l) : Function.update f a b x = f x := by
        refine Function.update_of_ne ?_ b f
        rintro rfl
        exact hAsymm x x (hLast x hx) (hLast x hx)
      have hNew : Function.update f a b a = b := Function.update_self a b f
      refine ⟨Function.update f a b, ?_, ?_⟩
      · intro x hx y hy hLt
        rw [List.mem_append, List.mem_singleton] at hx hy
        rcases hx with hx | rfl
        · rcases hy with hy | rfl
          · rw [hOld x hx, hOld y hy]
            exact hMono x hx y hy hLt
          · rw [hOld x hx, hNew]
            exact hLast' _ (hMap ▸ List.mem_map_of_mem hx)
        · rcases hy with hy | rfl
          · exact absurd hLt (hAsymm _ _ (hLast y hy))
          · exact absurd hLt (hAsymm y y hLt)
      · rw [List.map_append, List.map_congr_left hOld, hMap, List.map_singleton,
          hNew]

/-- A renaming of whole lists renames prefixes of equal length. -/
theorem map_of_isPrefix {f : α → β} {l p : List α} {l' p' : List β}
    (hMap : l.map f = l') (hp : p <+: l) (hp' : p' <+: l')
    (hLen : p.length = p'.length) : p.map f = p' := by
  have hImage : p.map f <+: l' := hMap ▸ hp.map f
  have hSame : (p.map f).length = p'.length := by
    rw [List.length_map, hLen]
  exact (List.prefix_of_prefix_length_le hImage hp'
    (Nat.le_of_eq hSame)).eq_of_length hSame

end ForgePass.Verified
