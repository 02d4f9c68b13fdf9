import ForgePass.Verified.Storage
import Mathlib.Data.Finset.Basic

/-!
# Guest computations of a contract host

A guest function runs against an environment (the addresses that authorised
the invocation and the ledger clock) and the two storage tiers.  It ends with
a value, with a contract error it returns itself, or with a host trap.

Storage is threaded through *without rollback*: a failing computation keeps
the writes it has already made.  The host undoes them on a real ledger, so a
theorem that a failing call left storage alone says something about the guest
code and does not rest on the host.

Loops of the guest are written with `for`; `ForgePass.Verified.Loop` gives the
closed form of each loop shape.
-/

namespace ForgePass.Verified

/-- What the host tells a guest about the current invocation. -/
structure Env (A : Type) where
  /-- Addresses whose authorisation the invocation carries. -/
  auths : Finset A
  /-- Ledger clock, in seconds.  It is a field of each invocation and as free as
  the others: nothing orders the times of successive invocations, unless a
  result asks for `Ticks` of `ForgePass.Verified.Clock`. -/
  timestamp : UInt64
  deriving DecidableEq

/-- How a guest call fails: an error value it returns, or a host trap. Only the
first carries one of the contract's error codes. -/
inductive Failure (E : Type) where
  | error (e : E)
  | trap
  deriving DecidableEq

/-- A guest computation, storage threaded without rollback: what was written
before a failure is in the storage it ends with. -/
def Guest (A K : Type) (V : K → Type) (E α : Type) : Type :=
  Env A → Ledger K V → Except (Failure E) α × Ledger K V

namespace Guest

variable {A K : Type} {V : K → Type} {E α β : Type}

instance : Monad (Guest A K V E) where
  pure a := fun _ s => (.ok a, s)
  bind x f := fun env s =>
    match x env s with
    | (.ok a, s') => f a env s'
    | (.error e, s') => (.error e, s')

/-- Return a contract error. -/
def fail (e : E) : Guest A K V E α := fun _ s => (.error (.error e), s)

/-- Read an entry of the instance tier. -/
def instanceGet (k : K) : Guest A K V E (Option (V k)) :=
  fun _ s => (.ok (s.instanceTier.get k), s)

/-- Ask for an entry of the instance tier without reading it. -/
def instanceHas (k : K) : Guest A K V E Bool :=
  fun _ s => (.ok (s.instanceTier.has k), s)

/-- Read an entry of the persistent tier. -/
def persistentGet (k : K) : Guest A K V E (Option (V k)) :=
  fun _ s => (.ok (s.persistentTier.get k), s)

/-- Ask for an entry of the persistent tier without reading it. -/
def persistentHas (k : K) : Guest A K V E Bool :=
  fun _ s => (.ok (s.persistentTier.has k), s)

/-- The time of the ledger that executes the invocation. -/
def ledgerTimestamp : Guest A K V E UInt64 := fun env s => (.ok env.timestamp, s)

section Writes

variable [DecidableEq K]

/-- Write an entry of the instance tier. -/
def instanceSet (k : K) (v : V k) : Guest A K V E Unit :=
  fun _ s => (.ok (), s.setInstance k v)

/-- Write an entry of the persistent tier. -/
def persistentSet (k : K) (v : V k) : Guest A K V E Unit :=
  fun _ s => (.ok (), s.setPersistent k v)

end Writes

/-- Trap unless `a` authorised the invocation. The contract gets no say in how
this fails. -/
def requireAuth [DecidableEq A] (a : A) : Guest A K V E Unit := fun env s =>
  if a ∈ env.auths then (.ok (), s) else (.error .trap, s)

/-! ## Running a computation -/

theorem bind_run (x : Guest A K V E α) (f : α → Guest A K V E β)
    (env : Env A) (s : Ledger K V) :
    (x >>= f) env s =
      match x env s with
      | (.ok a, s') => f a env s'
      | (.error e, s') => (.error e, s') := rfl

@[simp] theorem pure_run (a : α) (env : Env A) (s : Ledger K V) :
    (pure a : Guest A K V E α) env s = (.ok a, s) := rfl

@[simp] theorem fail_bind (e : E) (f : α → Guest A K V E β) (env : Env A)
    (s : Ledger K V) :
    ((fail e : Guest A K V E α) >>= f) env s = (.error (.error e), s) := rfl

@[simp] theorem fail_run (e : E) (env : Env A) (s : Ledger K V) :
    (fail e : Guest A K V E α) env s = (.error (.error e), s) := rfl

@[simp] theorem instanceGet_bind (k : K) (f : Option (V k) → Guest A K V E β)
    (env : Env A) (s : Ledger K V) :
    (instanceGet k >>= f) env s = f (s.instanceTier.get k) env s := rfl

@[simp] theorem instanceHas_bind (k : K) (f : Bool → Guest A K V E β)
    (env : Env A) (s : Ledger K V) :
    (instanceHas k >>= f) env s = f (s.instanceTier.has k) env s := rfl

@[simp] theorem persistentGet_bind (k : K)
    (f : Option (V k) → Guest A K V E β) (env : Env A) (s : Ledger K V) :
    (persistentGet k >>= f) env s = f (s.persistentTier.get k) env s := rfl

@[simp] theorem persistentHas_bind (k : K) (f : Bool → Guest A K V E β)
    (env : Env A) (s : Ledger K V) :
    (persistentHas k >>= f) env s = f (s.persistentTier.has k) env s := rfl

@[simp] theorem ledgerTimestamp_bind (f : UInt64 → Guest A K V E β)
    (env : Env A) (s : Ledger K V) :
    (ledgerTimestamp >>= f) env s = f env.timestamp env s := rfl

@[simp] theorem instanceSet_bind [DecidableEq K] (k : K) (v : V k)
    (f : Unit → Guest A K V E β) (env : Env A) (s : Ledger K V) :
    (instanceSet k v >>= f) env s = f () env (s.setInstance k v) := rfl

@[simp] theorem instanceSet_run [DecidableEq K] (k : K) (v : V k)
    (env : Env A) (s : Ledger K V) :
    (instanceSet k v : Guest A K V E Unit) env s =
      (.ok (), s.setInstance k v) := rfl

@[simp] theorem persistentSet_bind [DecidableEq K] (k : K) (v : V k)
    (f : Unit → Guest A K V E β) (env : Env A) (s : Ledger K V) :
    (persistentSet k v >>= f) env s = f () env (s.setPersistent k v) := rfl

@[simp] theorem persistentSet_run [DecidableEq K] (k : K) (v : V k)
    (env : Env A) (s : Ledger K V) :
    (persistentSet k v : Guest A K V E Unit) env s =
      (.ok (), s.setPersistent k v) := rfl

theorem requireAuth_bind [DecidableEq A] (a : A) (f : Unit → Guest A K V E β)
    (env : Env A) (s : Ledger K V) :
    (requireAuth a >>= f) env s =
      if a ∈ env.auths then f () env s else (.error .trap, s) := by
  by_cases hAuth : a ∈ env.auths
  · simp [bind_run, requireAuth, hAuth]
  · simp [bind_run, requireAuth, hAuth]

theorem map_run (g : α → β) (x : Guest A K V E α) (env : Env A)
    (s : Ledger K V) :
    (g <$> x) env s =
      match x env s with
      | (.ok a, s') => (.ok (g a), s')
      | (.error e, s') => (.error e, s') := rfl

end Guest

end ForgePass.Verified
