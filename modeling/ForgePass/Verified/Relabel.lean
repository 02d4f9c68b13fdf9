import ForgePass.Verified.Storage
import Mathlib.Data.Set.Operations

/-!
# Storage under relabelled keys and values

`Relabels key value s s'` says that `s'` holds the values of `s`, each mapped
by `value` and stored under the image of its key, and nothing else.  For an
injective `key` a write on one side is matched by the relabelled write on the
other, so the relation follows any computation write by write.
-/

namespace ForgePass.Verified

variable {K K' : Type} {V : K → Type} {V' : K' → Type} {key : K → K'}
  {value : (k : K) → V k → V' (key k)}

/-- `s'` is `s` with keys and values relabelled, and it holds nothing under the
keys that are no labels. -/
structure Storage.Relabels (key : K → K') (value : (k : K) → V k → V' (key k))
    (s : Storage K V) (s' : Storage K' V') : Prop where
  image : ∀ k, s'.get (key k) = (s.get k).map (value k)
  nothingElse : ∀ k', k' ∉ Set.range key → s'.get k' = none

theorem Storage.Relabels.empty :
    Storage.Relabels key value Storage.empty Storage.empty where
  image _ := rfl
  nothingElse _ _ := rfl

theorem Storage.Relabels.set [DecidableEq K] [DecidableEq K']
    {s : Storage K V} {s' : Storage K' V'} (h : s.Relabels key value s')
    (hKey : Function.Injective key) (k : K) (v : V k) :
    (s.set k v).Relabels key value (s'.set (key k) (value k v)) where
  image := by
    intro k'
    by_cases hk : k' = k
    · subst hk
      rw [Storage.get_set_self, Storage.get_set_self, Option.map_some]
    · have hImage : key k' ≠ key k := fun hEq => hk (hKey hEq)
      rw [Storage.get_set_of_ne _ hk, Storage.get_set_of_ne _ hImage, h.image]
  nothingElse := by
    intro k' hk'
    have hNew : k' ≠ key k := by
      rintro rfl
      exact hk' (Set.mem_range_self k)
    rw [Storage.get_set_of_ne _ hNew]
    exact h.nothingElse k' hk'

/-- A read with a default gives the relabelled value. -/
theorem Storage.Relabels.getD {s : Storage K V} {s' : Storage K' V'}
    (h : s.Relabels key value s') (k : K) (default : V k) :
    (s'.get (key k)).getD (value k default) =
      value k ((s.get k).getD default) := by
  rw [h.image, Option.getD_map]

/-- Both tiers are relabelled. -/
structure Ledger.Relabels (key : K → K') (value : (k : K) → V k → V' (key k))
    (s : Ledger K V) (s' : Ledger K' V') : Prop where
  instanceTier : s.instanceTier.Relabels key value s'.instanceTier
  persistentTier : s.persistentTier.Relabels key value s'.persistentTier

namespace Ledger.Relabels

theorem empty : Ledger.Relabels key value Ledger.empty Ledger.empty :=
  ⟨.empty, .empty⟩

variable [DecidableEq K] [DecidableEq K'] {s : Ledger K V} {s' : Ledger K' V'}

theorem setInstance (h : s.Relabels key value s')
    (hKey : Function.Injective key) (k : K) (v : V k) :
    (s.setInstance k v).Relabels key value
      (s'.setInstance (key k) (value k v)) :=
  ⟨h.instanceTier.set hKey k v, h.persistentTier⟩

theorem setPersistent (h : s.Relabels key value s')
    (hKey : Function.Injective key) (k : K) (v : V k) :
    (s.setPersistent k v).Relabels key value
      (s'.setPersistent (key k) (value k v)) :=
  ⟨h.instanceTier, h.persistentTier.set hKey k v⟩

end Ledger.Relabels

end ForgePass.Verified
