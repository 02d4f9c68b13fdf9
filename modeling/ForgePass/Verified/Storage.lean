import Mathlib.Logic.Function.Basic

/-!
# Typed key-value storage

A contract host stores values under keys, and the type of a value is fixed by
its key.  A tier is therefore a dependent partial map, and a contract sees two
of them: the *instance* tier, one ledger entry shared by the whole contract,
and the *persistent* tier, one ledger entry per key.

Every read after a write is settled by `get_set_self` and `get_set_of_ne`;
nothing above this module unfolds the representation.
-/

namespace ForgePass.Verified

/-- One storage tier: key `k` holds nothing or a value of type `V k`. That an
entry is absent and that it holds a default are different things here, as they
are for the host. -/
def Storage (K : Type) (V : K → Type) : Type := (k : K) → Option (V k)

namespace Storage

variable {K : Type} {V : K → Type}

/-- The tier of a freshly deployed contract. -/
def empty : Storage K V := fun _ => none

/-- The value under a key. -/
def get (s : Storage K V) (k : K) : Option (V k) := s k

/-- Whether there is a value under the key. -/
def has (s : Storage K V) (k : K) : Bool := (s.get k).isSome

@[simp] theorem get_empty (k : K) : (empty : Storage K V).get k = none := rfl

@[ext] theorem ext {s t : Storage K V} (h : ∀ k, s.get k = t.get k) : s = t :=
  funext h

variable [DecidableEq K]

/-- Write one key. -/
def set (s : Storage K V) (k : K) (v : V k) : Storage K V :=
  @Function.update K (fun k => Option (V k)) _ s k (some v)

@[simp] theorem get_set_self (s : Storage K V) (k : K) (v : V k) :
    (s.set k v).get k = some v :=
  @Function.update_self K (fun k => Option (V k)) _ k (some v) s

@[simp] theorem get_set_of_ne (s : Storage K V) {k k' : K} (h : k' ≠ k)
    (v : V k) : (s.set k v).get k' = s.get k' :=
  @Function.update_of_ne K (fun k => Option (V k)) _ k' k h (some v) s

/-- The last write of a key decides. -/
theorem set_set (s : Storage K V) (k : K) (v v' : V k) :
    (s.set k v).set k v' = s.set k v' := by
  ext1 k'
  by_cases hk : k' = k
  · subst hk
    rw [get_set_self, get_set_self]
  · rw [get_set_of_ne _ hk, get_set_of_ne _ hk, get_set_of_ne _ hk]

/-- Writing back the value a key already holds changes nothing. -/
theorem set_get_eq (s : Storage K V) {k : K} {v : V k}
    (h : s.get k = some v) : s.set k v = s := by
  ext1 k'
  by_cases hk : k' = k
  · subst hk
    rw [get_set_self, h]
  · exact get_set_of_ne s hk v

/-- A write changes a tier unless it writes what is there. -/
theorem set_eq_self_iff (s : Storage K V) (k : K) (v : V k) :
    s.set k v = s ↔ s.get k = some v := by
  constructor
  · intro hSame
    rw [← hSame]
    exact get_set_self s k v
  · exact set_get_eq s

end Storage

/-- The two storage tiers of one contract. Which tier an entry is in is part of
its identity: writing a key in one tier leaves the other as it is. -/
structure Ledger (K : Type) (V : K → Type) where
  instanceTier : Storage K V
  persistentTier : Storage K V

namespace Ledger

variable {K : Type} {V : K → Type}

/-- Storage of a freshly deployed contract. -/
def empty : Ledger K V := ⟨Storage.empty, Storage.empty⟩

@[simp] theorem empty_instanceTier :
    (empty : Ledger K V).instanceTier = Storage.empty := rfl

@[simp] theorem empty_persistentTier :
    (empty : Ledger K V).persistentTier = Storage.empty := rfl

/-- Ledgers are told apart by some key in one of the tiers. -/
theorem ext {s t : Ledger K V}
    (hInstance : ∀ k, s.instanceTier.get k = t.instanceTier.get k)
    (hPersistent : ∀ k, s.persistentTier.get k = t.persistentTier.get k) :
    s = t := by
  obtain ⟨si, sp⟩ := s
  obtain ⟨ti, tp⟩ := t
  rw [Ledger.mk.injEq]
  exact ⟨Storage.ext hInstance, Storage.ext hPersistent⟩

variable [DecidableEq K]

/-- Write one key of the instance tier. -/
def setInstance (s : Ledger K V) (k : K) (v : V k) : Ledger K V :=
  { s with instanceTier := s.instanceTier.set k v }

/-- Write one key of the persistent tier. -/
def setPersistent (s : Ledger K V) (k : K) (v : V k) : Ledger K V :=
  { s with persistentTier := s.persistentTier.set k v }

@[simp] theorem setInstance_instanceTier (s : Ledger K V) (k : K) (v : V k) :
    (s.setInstance k v).instanceTier = s.instanceTier.set k v := rfl

@[simp] theorem setInstance_persistentTier (s : Ledger K V) (k : K) (v : V k) :
    (s.setInstance k v).persistentTier = s.persistentTier := rfl

@[simp] theorem setPersistent_instanceTier (s : Ledger K V) (k : K) (v : V k) :
    (s.setPersistent k v).instanceTier = s.instanceTier := rfl

@[simp] theorem setPersistent_persistentTier (s : Ledger K V) (k : K)
    (v : V k) :
    (s.setPersistent k v).persistentTier = s.persistentTier.set k v := rfl

theorem setPersistent_setPersistent (s : Ledger K V) (k : K) (v v' : V k) :
    (s.setPersistent k v).setPersistent k v' = s.setPersistent k v' := by
  unfold setPersistent
  rw [Storage.set_set]

theorem setInstance_eq_self_iff (s : Ledger K V) (k : K) (v : V k) :
    s.setInstance k v = s ↔ s.instanceTier.get k = some v := by
  rw [← Storage.set_eq_self_iff]
  exact ⟨congrArg Ledger.instanceTier, fun h => by rw [setInstance, h]⟩

theorem setPersistent_eq_self_iff (s : Ledger K V) (k : K) (v : V k) :
    s.setPersistent k v = s ↔ s.persistentTier.get k = some v := by
  rw [← Storage.set_eq_self_iff]
  exact ⟨congrArg Ledger.persistentTier, fun h => by rw [setPersistent, h]⟩

/-- Writes to different tiers commute. -/
theorem setInstance_setPersistent (s : Ledger K V) (k k' : K) (v : V k)
    (v' : V k') :
    (s.setInstance k v).setPersistent k' v' =
      (s.setPersistent k' v').setInstance k v := rfl

end Ledger

end ForgePass.Verified
