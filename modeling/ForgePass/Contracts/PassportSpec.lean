import ForgePass.Contracts.Passport

/-!
# What one passport call does

Every successful call on a passport writes one record, read-modify-write on
the existing one except at creation.  The early return of `set_sybil_flag` is
no case of its own: writing back an unchanged record is the identity.
-/

namespace ForgePass.Contracts.Passport

open ForgePass.Verified
open ForgePass.Verified.Guest

variable {A : Type}

/-- The stored administrator. -/
def adminOf (s : Store A) : Option A := s.instanceTier.get .admin

variable [DecidableEq A]

/-- Write the record under the wallet's key. -/
def putPassport (s : Store A) (w : A) (r : PassportRecord A) : Store A :=
  s.setPersistent (.passport w) r

theorem putPassport_eq_self {s : Store A} {w : A} {r : PassportRecord A}
    (h : getPassport s w = some r) : putPassport s w r = s := by
  have hSame : s.persistentTier.set (.passport w) r = s.persistentTier :=
    Storage.set_get_eq (V := DataKey.Value A) _ h
  unfold putPassport Ledger.setPersistent
  rw [hSame]

theorem getPassport_putPassport (s : Store A) (w v : A)
    (r : PassportRecord A) :
    getPassport (putPassport s w r) v =
      if v = w then some r else getPassport s v := by
  by_cases hv : v = w
  · subst hv
    simp [getPassport, putPassport]
  · simp [getPassport, putPassport, hv]

@[simp] theorem adminOf_putPassport (s : Store A) (w : A)
    (r : PassportRecord A) : adminOf (putPassport s w r) = adminOf s := rfl

theorem getPassport_setAdmin (s : Store A) (w a : A) :
    getPassport (s.setInstance .admin a) w = getPassport s w := rfl

/-! ## Entry points in closed form -/

theorem requireAdmin_bind {α : Type} (f : Unit → Exec A α) (env : Env A)
    (s : Store A) :
    (requireAdmin >>= f) env s =
      if SignedBy (adminOf s) env then f () env s
      else (.error (refusal .notInitialized (adminOf s)), s) := by
  have h := requireAdminAt_bind (E := ContractError) (DataKey.admin : DataKey A)
    (id : DataKey.Value A .admin → A) .notInitialized f env s
  rw [Option.map_id, id_eq] at h
  exact h

theorem initializeAdmin_run (a : A) (env : Env A) (s : Store A) :
    initializeAdmin a env s =
      if (adminOf s).isSome then (.error (.error .alreadyInitialized), s)
      else (.ok (), s.setInstance .admin a) :=
  initializeAt_run (V := DataKey.Value A) .admin id
    ContractError.alreadyInitialized a env s

theorem createPassport_run (w : A) (cid : HostString) (env : Env A)
    (s : Store A) :
    createPassport w cid env s =
      if SignedBy (adminOf s) env then
        match getPassport s w with
        | some _ => (.error (.error .passportAlreadyExists), s)
        | none => (.ok (), putPassport s w ⟨w, cid, env.timestamp, false⟩)
      else (.error (refusal .notInitialized (adminOf s)), s) := by
  unfold createPassport
  rw [requireAdmin_bind]
  by_cases hSigned : SignedBy (adminOf s) env
  · rw [if_pos hSigned, if_pos hSigned, persistentHas_bind]
    cases hPassport : getPassport s w with
    | none =>
        have hHas : s.persistentTier.has (.passport w) = false :=
          congrArg Option.isSome hPassport
        simp [hHas, putPassport]
    | some r =>
        have hHas : s.persistentTier.has (.passport w) = true :=
          congrArg Option.isSome hPassport
        simp [hHas]
  · rw [if_neg hSigned, if_neg hSigned]

theorem updateMetadataCid_run (w : A) (cid : HostString) (env : Env A)
    (s : Store A) :
    updateMetadataCid w cid env s =
      if w ∈ env.auths then
        match getPassport s w with
        | none => (.error (.error .passportNotFound), s)
        | some r => (.ok (), putPassport s w { r with ipfsCid := cid })
      else (.error .trap, s) := by
  unfold updateMetadataCid
  rw [requireAuth_bind]
  by_cases hAuth : w ∈ env.auths
  · rw [if_pos hAuth, if_pos hAuth, persistentGet_bind]
    unfold getPassport
    cases s.persistentTier.get (.passport w) with
    | none => rfl
    | some r => rfl
  · rw [if_neg hAuth, if_neg hAuth]

theorem setSybilFlag_run (w : A) (flag : Bool) (env : Env A) (s : Store A) :
    setSybilFlag w flag env s =
      if SignedBy (adminOf s) env then
        match getPassport s w with
        | none => (.error (.error .passportNotFound), s)
        | some r => (.ok (), putPassport s w { r with sybilFlagged := flag })
      else (.error (refusal .notInitialized (adminOf s)), s) := by
  unfold setSybilFlag
  rw [requireAdmin_bind]
  by_cases hSigned : SignedBy (adminOf s) env
  · rw [if_pos hSigned, if_pos hSigned, persistentGet_bind]
    cases hPassport : getPassport s w with
    | none =>
        have hGet : s.persistentTier.get (.passport w) = none := hPassport
        simp only [hGet, fail_run]
    | some r =>
        have hGet : s.persistentTier.get (.passport w) = some r := hPassport
        simp only [hGet]
        by_cases hSame : r.sybilFlagged = flag
        · subst hSame
          rw [if_pos rfl, putPassport_eq_self hPassport]
          rfl
        · rw [if_neg hSame]
          rfl
  · rw [if_neg hSigned, if_neg hSigned]

/-! ## Transitions -/

/-- Everything a call can do to storage, with the answer it gives. -/
inductive Transition (s : Store A) :
    Invocation A (Call A) → Answer → Store A → Prop
  | refused (i : Invocation A (Call A)) (e : Failure ContractError) :
      Transition s i (.error e) s
  | initialized (env : Env A) (a : A) (hAdmin : adminOf s = none) :
      Transition s ⟨env, .initializeAdmin a⟩ (.ok ())
        (s.setInstance .admin a)
  | created (env : Env A) (w : A) (cid : HostString)
      (hSigned : SignedBy (adminOf s) env) (hNone : getPassport s w = none) :
      Transition s ⟨env, .createPassport w cid⟩ (.ok ())
        (putPassport s w ⟨w, cid, env.timestamp, false⟩)
  | updated (env : Env A) (w : A) (cid : HostString) (r : PassportRecord A)
      (hOwner : w ∈ env.auths) (hSome : getPassport s w = some r) :
      Transition s ⟨env, .updateMetadataCid w cid⟩ (.ok ())
        (putPassport s w { r with ipfsCid := cid })
  | flagged (env : Env A) (w : A) (flag : Bool) (r : PassportRecord A)
      (hSigned : SignedBy (adminOf s) env) (hSome : getPassport s w = some r) :
      Transition s ⟨env, .setSybilFlag w flag⟩ (.ok ())
        (putPassport s w { r with sybilFlagged := flag })

/-- Every step of the machine is a transition. Invariants are proved by its
cases, without a look at the code of the entry points. -/
theorem step_transition (s : Store A) (i : Invocation A (Call A)) :
    Transition s i (machine.step s i).1 (machine.step s i).2 := by
  obtain ⟨env, call⟩ := i
  simp only [machine, guestMachine]
  cases call with
  | initializeAdmin a =>
      simp only [exec, initializeAdmin_run]
      cases hAdmin : adminOf s with
      | none => exact .initialized env a hAdmin
      | some b => exact .refused _ _
  | createPassport w cid =>
      simp only [exec, createPassport_run]
      by_cases hSigned : SignedBy (adminOf s) env
      · simp only [hSigned, if_true]
        cases hPassport : getPassport s w with
        | none => exact .created env w cid hSigned hPassport
        | some r => exact .refused _ _
      · simp only [hSigned, if_false]
        exact .refused _ _
  | updateMetadataCid w cid =>
      simp only [exec, updateMetadataCid_run]
      by_cases hOwner : w ∈ env.auths
      · simp only [hOwner, if_true]
        cases hPassport : getPassport s w with
        | none => exact .refused _ _
        | some r => exact .updated env w cid r hOwner hPassport
      · simp only [hOwner, if_false]
        exact .refused _ _
  | setSybilFlag w flag =>
      simp only [exec, setSybilFlag_run]
      by_cases hSigned : SignedBy (adminOf s) env
      · simp only [hSigned, if_true]
        cases hPassport : getPassport s w with
        | none => exact .refused _ _
        | some r => exact .flagged env w flag r hSigned hPassport
      · simp only [hSigned, if_false]
        exact .refused _ _

/-! ## Access control -/

/-- The administrator a call installed, if it did. -/
def installs : Invocation A (Call A) × Answer → Option A
  | (⟨_, .initializeAdmin a⟩, .ok _) => some a
  | _ => none

/-- An `update_metadata_cid` that the passport's wallet authorised. -/
def OwnerUpdate (i : Invocation A (Call A)) : Prop :=
  ∃ w cid, i.call = .updateMetadataCid w cid ∧ w ∈ i.env.auths

/-- Only the installing call and owner updates do without the
administrator. -/
theorem adminStep {s s' : Store A} {i : Invocation A (Call A)}
    {answer : Answer} (hStep : Transition s i answer s') :
    AdminStep adminOf OwnerUpdate s i (installs (i, answer)) s' := by
  cases hStep with
  | refused i e =>
      refine .refused ?_ rfl
      obtain ⟨env, call⟩ := i
      cases call with
      | initializeAdmin a => rfl
      | createPassport w cid => rfl
      | updateMetadataCid w cid => rfl
      | setSybilFlag w flag => rfl
  | initialized env a hAdmin => exact .installs a rfl hAdmin (by simp [adminOf])
  | created env w cid hSigned hNone => exact .signed rfl hSigned (by simp)
  | updated env w cid r hOwner hSome =>
      exact .exempted rfl ⟨w, cid, rfl, hOwner⟩ (by simp)
  | flagged env w flag r hSigned hSome => exact .signed rfl hSigned (by simp)

/-- An owner update writes the CID of an existing passport, or nothing. -/
theorem ownerUpdate_step (s : Store A) (env : Env A) (w : A)
    (cid : HostString) :
    (machine.step s ⟨env, .updateMetadataCid w cid⟩).2 = s ∨
      w ∈ env.auths ∧ ∃ r, getPassport s w = some r ∧
        (machine.step s ⟨env, .updateMetadataCid w cid⟩).2 =
          putPassport s w { r with ipfsCid := cid } := by
  simp only [machine, guestMachine, exec, updateMetadataCid_run]
  by_cases hOwner : w ∈ env.auths
  · cases hPassport : getPassport s w with
    | none => simp [hOwner]
    | some r => simp [hOwner]
  · simp [hOwner]

theorem adminGuarded : AdminGuarded (machine : Machine (Store A) _ _) adminOf
    installs OwnerUpdate where
  fresh := rfl
  idle := by
    rintro ⟨env, call⟩ ⟨w, cid, rfl, hOwner⟩
    rcases ownerUpdate_step machine.init env w cid with hSame | ⟨-, r, hr, -⟩
    · exact hSame
    · cases hr
  steps := fun s i => adminStep (step_transition s i)

end ForgePass.Contracts.Passport
