import ForgePass.Verified.Guest
import ForgePass.Verified.Machine

/-!
# Contracts guarded by one administrator

A contract is a family of guest functions over one ledger; calling them one
after the other is a machine.  Many contracts follow one access pattern: a
bootstrap call stores an administrator once, and every state-changing function
begins by loading that address and requiring its authorisation.

`requireAdminAt` and `initializeAt` are the two guest functions of the pattern.
`AdminStep` lists what a call of the pattern can do, with room for
owner-authorised exceptions, and `AdminGuarded` says that a machine does
nothing else.  The theorems after it hold of whole runs.
-/

namespace ForgePass.Verified

/-- One call as the host sees it: the call and its environment. Nothing ties
the environments of successive invocations together. -/
structure Invocation (A C : Type) where
  env : Env A
  call : C

namespace Invocation

variable {A C : Type}

/-- The time at which the ledger executes the call. -/
def time (i : Invocation A C) : Nat := i.env.timestamp.toNat

/-- The same call, executed at another time. -/
def retimed (now : UInt64) (i : Invocation A C) : Invocation A C :=
  ⟨⟨i.env.auths, now⟩, i.call⟩

@[simp] theorem time_retimed (now : UInt64) (i : Invocation A C) :
    (i.retimed now).time = now.toNat := rfl

end Invocation

/-- The machine that executes the calls of a contract, from fresh storage. The
storage after a failing call is what the guest code left, so a host that rolls
back is not assumed. -/
def guestMachine {A K : Type} {V : K → Type} {E C R : Type}
    (exec : C → Guest A K V E R) :
    Machine (Ledger K V) (Invocation A C) (Except (Failure E) R) where
  init := Ledger.empty
  step s i := exec i.call i.env s

/-! ## The administrator's authorisation -/

section Signed

variable {A : Type}

/-- An administrator is stored and authorised the invocation. Other signatures
do no harm. -/
def SignedBy (admin : Option A) (env : Env A) : Prop :=
  ∃ a, admin = some a ∧ a ∈ env.auths

@[simp] theorem not_signedBy_none (env : Env A) :
    ¬SignedBy (none : Option A) env := by
  rintro ⟨a, h, -⟩
  cases h

@[simp] theorem signedBy_some (a : A) (env : Env A) :
    SignedBy (some a) env ↔ a ∈ env.auths := by
  constructor
  · rintro ⟨b, h, hb⟩
    exact Option.some.inj h ▸ hb
  · exact fun h => ⟨a, rfl, h⟩

instance [DecidableEq A] (admin : Option A) (env : Env A) :
    Decidable (SignedBy admin env) :=
  match admin with
  | none => isFalse (not_signedBy_none env)
  | some a => decidable_of_iff (a ∈ env.auths) (signedBy_some a env).symm

/-- How a call without the administrator's authorisation ends: with the
contract's error if there is no administrator, else with a host trap. -/
def refusal {E : Type} (missing : E) : Option A → Failure E
  | none => .error missing
  | some _ => .trap

end Signed

namespace Guest

variable {A K : Type} {V : K → Type} {E α : Type}

/-- Load the address stored in instance slot `k` and require its
authorisation; an empty slot is the contract error `missing`. -/
def requireAdminAt [DecidableEq A] (k : K) (address : V k → A) (missing : E) :
    Guest A K V E Unit := do
  let some admin ← instanceGet k | fail missing
  requireAuth (address admin)

/-- Store `admin` in instance slot `k`, once. No signature is asked for:
whoever comes first decides. -/
def initializeAt [DecidableEq K] (k : K) (value : A → V k) (already : E)
    (admin : A) : Guest A K V E Unit := do
  if ← instanceHas k then
    fail already
  instanceSet k (value admin)

theorem requireAdminAt_bind [DecidableEq A] (k : K) (address : V k → A)
    (missing : E) (f : Unit → Guest A K V E α) (env : Env A)
    (s : Ledger K V) :
    (requireAdminAt k address missing >>= f) env s =
      if SignedBy ((s.instanceTier.get k).map address) env then f () env s
      else
        (.error (refusal missing ((s.instanceTier.get k).map address)), s) := by
  cases hAdmin : s.instanceTier.get k with
  | none => simp [bind_run, requireAdminAt, instanceGet, hAdmin, fail, refusal]
  | some a =>
      by_cases hAuth : address a ∈ env.auths
      · simp [bind_run, requireAdminAt, instanceGet, hAdmin, requireAuth,
          hAuth]
      · simp [bind_run, requireAdminAt, instanceGet, hAdmin, requireAuth,
          hAuth, refusal]

theorem initializeAt_run [DecidableEq K] (k : K) (value : A → V k)
    (already : E) (admin : A) (env : Env A) (s : Ledger K V) :
    (initializeAt k value already admin : Guest A K V E Unit) env s =
      if (s.instanceTier.get k).isSome then (.error (.error already), s)
      else (.ok (), s.setInstance k (value admin)) := by
  cases h : s.instanceTier.get k with
  | none => simp [initializeAt, Storage.has, h]
  | some a => simp [initializeAt, Storage.has, h]

end Guest

/-! ## Failures -/

section Failures

variable {A E R σ ι : Type}

/-- The failure in an answer, if it is one. -/
def failureOf : Except (Failure E) R → Option (Failure E)
  | .ok _ => none
  | .error e => some e

/-- How a call that the administrator guards fails: without an administrator,
without its authorisation, or for a reason of its own. -/
def adminFailure [DecidableEq A] (missing : E) (admin : Option A) (env : Env A)
    (own : Option E) : Option (Failure E) :=
  match admin with
  | none => some (.error missing)
  | some a => if a ∈ env.auths then own.map .error else some .trap

theorem failureOf_guarded [DecidableEq A] (missing : E) (admin : Option A)
    (env : Env A) (s : σ) {x : Except (Failure E) R × σ} {own : Option E}
    (hOwn : failureOf x.1 = own.map .error) :
    failureOf (if SignedBy admin env then x
        else (.error (refusal missing admin), s)).1 =
      adminFailure missing admin env own := by
  cases admin with
  | none =>
      rw [if_neg (not_signedBy_none env)]
      rfl
  | some a =>
      simp only [signedBy_some, adminFailure]
      by_cases hAuth : a ∈ env.auths
      · rw [if_pos hAuth, if_pos hAuth, hOwn]
      · rw [if_neg hAuth, if_neg hAuth]
        rfl

/-- In every reachable state a call fails as `expected` says; in any state a
failing call has written nothing. -/
structure FailsExactly (m : Machine σ ι (Except (Failure E) R))
    (expected : σ → ι → Option (Failure E)) : Prop where
  exactly : ∀ is i,
    failureOf (m.step (m.run is) i).1 = expected (m.run is) i
  atomic : ∀ s i e, (m.step s i).1 = .error e → (m.step s i).2 = s

/-- For a machine whose failing transitions leave the state alone. -/
theorem FailsExactly.of_transition {m : Machine σ ι (Except (Failure E) R)}
    {expected : σ → ι → Option (Failure E)}
    {T : σ → ι → Except (Failure E) R → σ → Prop}
    (hStep : ∀ s i, T s i (m.step s i).1 (m.step s i).2)
    (hRefused : ∀ {s i e s'}, T s i (.error e) s' → s' = s)
    (hExact : ∀ is i,
      failureOf (m.step (m.run is) i).1 = expected (m.run is) i) :
    FailsExactly m expected where
  exactly := hExact
  atomic := by
    intro s i e hError
    have hFailed := hStep s i
    rw [hError] at hFailed
    exact hRefused hFailed

end Failures

/-! ## Admin-guarded machines -/

section Guarded

variable {A C σ ρ : Type}

/-- What one call of the pattern does.  `installed` is the administrator that
the call installed, if it did. -/
inductive AdminStep (admin : σ → Option A) (exempt : Invocation A C → Prop)
    (s : σ) (i : Invocation A C) (installed : Option A) (s' : σ) : Prop
  | refused (hNone : installed = none) (hSame : s' = s)
  | installs (a : A) (hSome : installed = some a) (hAdmin : admin s = none)
      (hNew : admin s' = some a)
  | signed (hNone : installed = none) (hSigned : SignedBy (admin s) i.env)
      (hAdmin : admin s' = admin s)
  | exempted (hNone : installed = none) (hExempt : exempt i)
      (hAdmin : admin s' = admin s)

/-- The access pattern: a fresh machine has no administrator, exempt calls
leave it fresh, and every step is of one of the four kinds. -/
structure AdminGuarded (m : Machine σ (Invocation A C) ρ)
    (admin : σ → Option A) (installs : Invocation A C × ρ → Option A)
    (exempt : Invocation A C → Prop) : Prop where
  fresh : admin m.init = none
  idle : ∀ i, exempt i → (m.step m.init i).2 = m.init
  steps : ∀ s i, AdminStep admin exempt s i (installs (i, (m.step s i).1))
    (m.step s i).2

namespace AdminGuarded

variable {m : Machine σ (Invocation A C) ρ} {admin : σ → Option A}
  {installs : Invocation A C × ρ → Option A} {exempt : Invocation A C → Prop}

/-- A fresh machine stays fresh under every call but an installing one. -/
theorem first (h : AdminGuarded m admin installs exempt) {i : Invocation A C}
    (hNone : installs (i, (m.step m.init i).1) = none) :
    (m.step m.init i).2 = m.init := by
  cases h.steps m.init i with
  | refused _ hSame => exact hSame
  | installs a hSome _ _ =>
      rw [hNone] at hSome
      cases hSome
  | signed _ hSigned _ =>
      rw [h.fresh] at hSigned
      exact absurd hSigned (not_signedBy_none i.env)
  | exempted _ hExempt _ => exact h.idle i hExempt

theorem stores (h : AdminGuarded m admin installs exempt) {s : σ}
    {i : Invocation A C} {a : A}
    (ha : installs (i, (m.step s i).1) = some a) :
    admin (m.step s i).2 = some a := by
  cases h.steps s i with
  | installs b hSome _ hNew => rw [hNew, ← hSome, ha]
  | refused hNone _ => simp [hNone] at ha
  | signed hNone _ _ => simp [hNone] at ha
  | exempted hNone _ _ => simp [hNone] at ha

theorem keeps (h : AdminGuarded m admin installs exempt) {s : σ} {a : A}
    (ha : admin s = some a) (i : Invocation A C) :
    admin (m.step s i).2 = some a := by
  cases h.steps s i with
  | refused _ hSame => rw [hSame, ha]
  | installs b _ hAdmin _ => simp [ha] at hAdmin
  | signed _ _ hAdmin => rw [hAdmin, ha]
  | exempted _ _ hAdmin => rw [hAdmin, ha]

theorem frame (h : AdminGuarded m admin installs exempt) {s : σ} {a : A}
    (ha : admin s = some a) {i : Invocation A C} (hAuth : a ∉ i.env.auths)
    (hExempt : ¬exempt i) : (m.step s i).2 = s := by
  cases h.steps s i with
  | refused _ hSame => exact hSame
  | installs b _ hAdmin _ => simp [ha] at hAdmin
  | signed _ hSigned _ =>
      rw [ha, signedBy_some] at hSigned
      exact absurd hSigned hAuth
  | exempted _ hYes _ => exact absurd hYes hExempt

/-! ## Whole runs -/

/-- Until an installing call succeeds, storage is as deployed. -/
theorem untouched (h : AdminGuarded m admin installs exempt)
    {is : List (Invocation A C)}
    (hNone : ∀ e ∈ m.history is, installs e = none) : m.run is = m.init := by
  induction is using List.reverseRecOn with
  | nil => rfl
  | append_singleton is i ih =>
      rw [m.history_concat] at hNone
      have hInit := ih fun e he => hNone e (by simp [he])
      rw [m.run_concat, hInit]
      exact h.first (hNone (i, _) (by simp [hInit]))

/-- After a successful installing call its address is the administrator in
every later state. -/
theorem admin_of_installed (h : AdminGuarded m admin installs exempt)
    {is : List (Invocation A C)} {e : Invocation A C × ρ} {a : A}
    (he : e ∈ m.history is) (ha : installs e = some a) :
    admin (m.run is) = some a := by
  induction is using List.reverseRecOn with
  | nil => simp at he
  | append_singleton is i ih =>
      rw [m.history_concat, List.mem_append] at he
      rw [m.run_concat]
      rcases he with he | he
      · exact h.keeps (ih he) i
      · rw [List.mem_singleton] at he
        subst he
        exact h.stores ha

/-- Calls that neither the administrator authorised nor the pattern exempts
leave storage alone, however many follow. -/
theorem frame_runFrom (h : AdminGuarded m admin installs exempt) {s : σ}
    {a : A} (ha : admin s = some a) {is : List (Invocation A C)}
    (hCalls : ∀ i ∈ is, a ∉ i.env.auths ∧ ¬exempt i) :
    m.runFrom s is = s := by
  induction is with
  | nil => rfl
  | cons i is ih =>
      obtain ⟨hAuth, hExempt⟩ := hCalls i (by simp)
      show m.runFrom (m.step s i).2 is = s
      rw [h.frame ha hAuth hExempt]
      exact ih fun j hj => hCalls j (by simp [hj])

end AdminGuarded

end Guarded

end ForgePass.Verified
