import ForgePass.Contracts.CounterLimits
import ForgePass.Contracts.PassportReplay
import ForgePass.Contracts.System
import ForgePass.Verified.Coalition
import ForgePass.Verified.Simulation

/-!
# The time of the ledger

The time at which a call is executed is that of the ledger it gets into, and
nobody can choose it.  Three of the contracts never look at it.  The passport
contract writes it down, as the date of a new passport, and does nothing else
with it: a run at other times gets the same answers, and leaves the same
storage but for these dates (`step_undated`).
-/

namespace ForgePass.Contracts

open ForgePass.Verified
open ForgePass.Verified.Machine

/-! ## Contracts that look at signatures only -/

namespace TrustScore

variable {A : Type} [DecidableEq A]

/-- The trust-score contract looks at nothing in the environment but the
signature of its administrator. -/
theorem signatureOnly : SignatureOnly (machine (A := A)) adminOf Any where
  step := by
    intro s env env' call hSame
    cases call with
    | initializeAdmin b =>
        show initializeAdmin b _ s = initializeAdmin b _ s
        rw [initializeAdmin_run, initializeAdmin_run]
    | anchorScore w score version hash time =>
        show anchorScore w score version hash time env' s =
          anchorScore w score version hash time env s
        rw [anchorScore_run, anchorScore_run]
        simp only [hSame]
  allowed := fun _ _ _ _ _ _ => trivial

end TrustScore

namespace SoulboundNft

variable {A M : Type} [DecidableEq A] [DecidableEq M]

/-- Neither does the badge contract. -/
theorem signatureOnly : SignatureOnly (machine (A := A) (M := M)) adminOf
    RoomLeft where
  step := by
    intro s env env' call hSame
    cases call with
    | initializeAdmin b => rw [step_initializeAdmin, step_initializeAdmin]
    | mint w m cid time =>
        rw [step_mint, step_mint]
        simp only [hSame]
  allowed := by
    intro s env env' call hSame hRoom
    cases call with
    | initializeAdmin b => trivial
    | mint w m cid time =>
        exact fun hFresh => hRoom ⟨hSame.mp hFresh.1, hFresh.2⟩

end SoulboundNft

namespace CredentialStore

variable {A S : Type} [DecidableEq A] [DecidableEq S]

/-- Nor the credential store. -/
theorem signatureOnly : SignatureOnly (machine (A := A) (S := S)) adminOf
    RoomLeft where
  step := by
    intro s env env' call hSame
    cases call with
    | initializeAdmin b => rw [step_initializeAdmin, step_initializeAdmin]
    | addCredential w t sid d h =>
        rw [step_addCredential, step_addCredential]
        simp only [hSame]
    | addArchiveRecord w root count time cid =>
        rw [step_addArchiveRecord, step_addArchiveRecord]
        simp only [hSame]
    | removeCredentials w sids =>
        rw [step_removeCredentials, step_removeCredentials]
        simp only [hSame]
  allowed := by
    intro s env env' call hSame hRoom
    cases call with
    | initializeAdmin b => trivial
    | addCredential w t sid d h =>
        exact fun hFresh => hRoom ⟨hSame.mp hFresh.1, hFresh.2⟩
    | addArchiveRecord w root count time cid =>
        exact fun hSigned => hRoom (hSame.mp hSigned)
    | removeCredentials w sids => trivial

end CredentialStore

/-! ## The dates of passports -/

namespace Passport

variable {A : Type}

/-- A passport without its date. -/
def undated (r : PassportRecord A) : PassportRecord A :=
  { r with createdAt := 0 }

/-- The storage, with the dates of its passports erased. -/
def undate (s : Store A) : Store A where
  instanceTier := s.instanceTier
  persistentTier := fun
    | .admin => s.persistentTier .admin
    | .passport w => (s.persistentTier (.passport w)).map undated

@[simp] theorem adminOf_undate (s : Store A) : adminOf (undate s) = adminOf s :=
  rfl

@[simp] theorem getPassport_undate (s : Store A) (w : A) :
    getPassport (undate s) w = (getPassport s w).map undated := rfl

variable [DecidableEq A]

/-- Dates set aside, a stored passport is stored. -/
theorem undate_putPassport (s : Store A) (w : A) (r : PassportRecord A) :
    undate (putPassport s w r) = putPassport (undate s) w (undated r) := by
  apply Ledger.ext
  · exact fun k => rfl
  · intro k
    cases k with
    | admin => rfl
    | passport v =>
        show getPassport (undate (putPassport s w r)) v =
          getPassport (putPassport (undate s) w (undated r)) v
        rw [getPassport_undate, getPassport_putPassport,
          getPassport_putPassport, getPassport_undate]
        by_cases hv : v = w
        · rw [if_pos hv, if_pos hv]
          rfl
        · rw [if_neg hv, if_neg hv]

/-- A call does the same whatever the time, but for a date it may write: with
dates erased before and after, it may as well be executed at time 0. -/
theorem step_undate (s : Store A) (i : Invocation A (Call A)) :
    machine.step (undate s) (i.retimed 0) =
      ((machine.step s i).1, undate (machine.step s i).2) := by
  obtain ⟨env, call⟩ := i
  cases call with
  | initializeAdmin b =>
      show initializeAdmin b _ (undate s) = ((initializeAdmin b env s).1, _)
      rw [initializeAdmin_run, adminOf_undate]
      show _ = (_, undate (initializeAdmin b env s).2)
      rw [initializeAdmin_run]
      cases adminOf s with
      | none => rfl
      | some a => rfl
  | createPassport w cid =>
      show createPassport w cid ⟨env.auths, 0⟩ (undate s) =
        ((createPassport w cid env s).1, undate (createPassport w cid env s).2)
      rw [createPassport_run, createPassport_run, adminOf_undate,
        getPassport_undate]
      by_cases hSigned : SignedBy (adminOf s) env
      · have hOnly : SignedBy (adminOf s) ⟨env.auths, 0⟩ := hSigned
        rw [if_pos hSigned, if_pos hOnly]
        cases getPassport s w with
        | none => rw [undate_putPassport]; rfl
        | some r => rfl
      · have hOnly : ¬SignedBy (adminOf s) ⟨env.auths, 0⟩ := hSigned
        rw [if_neg hSigned, if_neg hOnly]
  | updateMetadataCid w cid =>
      show updateMetadataCid w cid ⟨env.auths, 0⟩ (undate s) =
        ((updateMetadataCid w cid env s).1,
          undate (updateMetadataCid w cid env s).2)
      rw [updateMetadataCid_run, updateMetadataCid_run, getPassport_undate]
      by_cases hAuth : w ∈ env.auths
      · rw [if_pos hAuth, if_pos hAuth]
        cases getPassport s w with
        | none => rfl
        | some r => rw [undate_putPassport]; rfl
      · rw [if_neg hAuth, if_neg hAuth]
  | setSybilFlag w flag =>
      show setSybilFlag w flag ⟨env.auths, 0⟩ (undate s) =
        ((setSybilFlag w flag env s).1, undate (setSybilFlag w flag env s).2)
      rw [setSybilFlag_run, setSybilFlag_run, adminOf_undate,
        getPassport_undate]
      by_cases hSigned : SignedBy (adminOf s) env
      · have hOnly : SignedBy (adminOf s) ⟨env.auths, 0⟩ := hSigned
        rw [if_pos hSigned, if_pos hOnly]
        cases getPassport s w with
        | none => rfl
        | some r => rw [undate_putPassport]; rfl
      · have hOnly : ¬SignedBy (adminOf s) ⟨env.auths, 0⟩ := hSigned
        rw [if_neg hSigned, if_neg hOnly]

/-- The call gives a passport. -/
def Creates (s : Store A) (i : Invocation A (Call A)) : Prop :=
  ∃ w cid, i.call = .createPassport w cid ∧ SignedBy (adminOf s) i.env ∧
    getPassport s w = none

/-- A creation on a missing passport that the administrator signed succeeds. -/
theorem Creates.accepted {s : Store A} {env : Env A} {w : A} {cid : HostString}
    (hSigned : SignedBy (adminOf s) env) (hNone : getPassport s w = none) :
    (machine.step s ⟨env, .createPassport w cid⟩).1 = .ok () := by
  show (createPassport w cid env s).1 = _
  rw [createPassport_run, if_pos hSigned, hNone]

/-- A passport that is given has the date of its ledger. -/
theorem getPassport_of_accepted {s : Store A} {env : Env A} {w : A}
    {cid : HostString}
    (h : (machine.step s ⟨env, .createPassport w cid⟩).1 = .ok ()) :
    getPassport (machine.step s ⟨env, .createPassport w cid⟩).2 w =
      some ⟨w, cid, env.timestamp, false⟩ := by
  have h : (createPassport w cid env s).1 = .ok () := h
  show getPassport (createPassport w cid env s).2 w = _
  rw [createPassport_run] at h ⊢
  by_cases hSigned : SignedBy (adminOf s) env
  · rw [if_pos hSigned] at h ⊢
    cases hGiven : getPassport s w with
    | none => simp [getPassport_putPassport]
    | some r =>
        rw [hGiven] at h
        cases h
  · rw [if_neg hSigned] at h
    cases h

/-- Any other call is the same call at every time. -/
theorem step_retimed {s : Store A} {i : Invocation A (Call A)}
    (h : ¬Creates s i) (now : UInt64) :
    machine.step s (i.retimed now) = machine.step s i := by
  obtain ⟨env, call⟩ := i
  cases call with
  | initializeAdmin b =>
      show initializeAdmin b _ s = initializeAdmin b _ s
      rw [initializeAdmin_run, initializeAdmin_run]
  | createPassport w cid =>
      show createPassport w cid ⟨env.auths, now⟩ s = createPassport w cid env s
      rw [createPassport_run, createPassport_run]
      by_cases hSigned : SignedBy (adminOf s) env
      · have hOnly : SignedBy (adminOf s) ⟨env.auths, now⟩ := hSigned
        rw [if_pos hSigned, if_pos hOnly]
        cases hGiven : getPassport s w with
        | none => exact absurd ⟨w, cid, rfl, hSigned, hGiven⟩ h
        | some r => rfl
      · have hOnly : ¬SignedBy (adminOf s) ⟨env.auths, now⟩ := hSigned
        rw [if_neg hSigned, if_neg hOnly]
  | updateMetadataCid w cid =>
      show updateMetadataCid w cid ⟨env.auths, now⟩ s =
        updateMetadataCid w cid env s
      rw [updateMetadataCid_run, updateMetadataCid_run]
  | setSybilFlag w flag =>
      show setSybilFlag w flag ⟨env.auths, now⟩ s = setSybilFlag w flag env s
      rw [setSybilFlag_run, setSybilFlag_run]
      rfl

/-- What other calls do before does not make a call give a passport. -/
theorem Creates.of_step {s : Store A} {a : A} (hAdmin : adminOf s = some a)
    {i j : Invocation A (Call A)} (h : Creates (machine.step s j).2 i) :
    Creates s i := by
  obtain ⟨w, cid, hCall, hSigned, hNone⟩ := h
  rw [adminGuarded.keeps hAdmin j, ← hAdmin] at hSigned
  refine ⟨w, cid, hCall, hSigned, ?_⟩
  cases hGiven : getPassport s w with
  | none => rfl
  | some r =>
      obtain ⟨r', hLater, -⟩ := getPassport_runFrom w hGiven [j]
      exact absurd (hNone.symm.trans hLater) (by simp)

end Passport

/-! ## The system -/

namespace System

variable {A S M : Type}

/-- The same request, in the ledger of another time. -/
def retimed (now : UInt64) (r : Request A S M) : Request A S M :=
  ⟨r.1, r.2.retimed now⟩

/-- A request without the time of its ledger. -/
def untimed : Request A S M → Request A S M := retimed 0

/-- The storage of one contract without dates. -/
def undateIn : (k : Contract) → k.Store A S M → k.Store A S M
  | .passport => Passport.undate
  | .credentialStore => id
  | .trustScore => id
  | .soulboundNft => id

/-- The storage of all contracts without the dates of passports. -/
def undated (s : State A S M) : State A S M := fun k => undateIn k (s k)

/-- The request gives a passport. -/
def Creates (s : State A S M) : Request A S M → Prop
  | ⟨.passport, i⟩ => Passport.Creates (s .passport) i
  | _ => False

variable [DecidableEq A] [DecidableEq S] [DecidableEq M]

/-- Only the passport contract looks at the time. -/
theorem contract_step_retimed (now : UInt64) : ∀ k : Contract,
    k ≠ .passport → ∀ (s : k.Store A S M) (i : Invocation A (k.Call A S M)),
      (contract k).step s (i.retimed now) = (contract k).step s i
  | .passport, h, _, _ => absurd rfl h
  | .credentialStore, _, s, i =>
      CredentialStore.signatureOnly.step s i.env _ i.call Iff.rfl
  | .trustScore, _, s, i =>
      TrustScore.signatureOnly.step s i.env _ i.call Iff.rfl
  | .soulboundNft, _, s, i =>
      SoulboundNft.signatureOnly.step s i.env _ i.call Iff.rfl

/-- The step lemma, contract by contract: setting the dates aside commutes with
a call executed at time 0, and the answers do not change. -/
theorem step_undateIn : ∀ (k : Contract) (s : k.Store A S M)
    (i : Invocation A (k.Call A S M)),
      (contract k).step (undateIn k s) (i.retimed 0) =
        (((contract k).step s i).1, undateIn k ((contract k).step s i).2)
  | .passport, s, i => Passport.step_undate s i
  | .credentialStore, s, i => contract_step_retimed 0 _ (by decide) s i
  | .trustScore, s, i => contract_step_retimed 0 _ (by decide) s i
  | .soulboundNft, s, i => contract_step_retimed 0 _ (by decide) s i

/-- **One step.**  A request does the same whatever the time of its ledger, but
for the date it may write. -/
theorem step_undated (s : State A S M) (r : Request A S M) :
    host.step (undated s) (untimed r) =
      ((host.step s r).1, undated (host.step s r).2) := by
  obtain ⟨k, i⟩ := r
  have hStep := step_undateIn k (s k) i
  have hState : undated (Function.update s k ((contract k).step (s k) i).2) =
      Function.update (undated s) k
        (undateIn k ((contract k).step (s k) i).2) := by
    funext j
    exact Function.apply_update (fun j => undateIn j) s k _ j
  show ((⟨k, ((contract k).step (undateIn k (s k)) (i.retimed 0)).1⟩ : Response),
    Function.update (undated s) k
      ((contract k).step (undateIn k (s k)) (i.retimed 0)).2) =
    (⟨k, ((contract k).step (s k) i).1⟩,
      undated (Function.update s k ((contract k).step (s k) i).2))
  rw [hStep, hState]

/-- **Whole runs.** With dates erased, a sequence of requests leaves what it
leaves when all of them are executed at time 0. -/
theorem runFrom_undated (s : State A S M) (is : List (Request A S M)) :
    host.runFrom (undated s) (is.map untimed) =
      undated (host.runFrom s is) := (runFrom_map step_undated s is).1

/-- Along a run the answers stay the same when all requests are executed at
time 0. -/
theorem historyFrom_undated (s : State A S M) (is : List (Request A S M)) :
    host.historyFrom (undated s) (is.map untimed) =
      (host.historyFrom s is).map fun e => (untimed e.1, e.2) :=
  (runFrom_map step_undated s is).2

theorem undated_init :
    undated (host (A := A) (S := S) (M := M)).init = host.init := by
  funext k
  cases k with
  | passport =>
      apply Ledger.ext
      · exact fun k => rfl
      · intro k
        cases k <;> rfl
  | credentialStore => rfl
  | trustScore => rfl
  | soulboundNft => rfl

/-- Dates set aside, a run leaves what it leaves when every request is executed
at time 0. -/
theorem run_undated (rs : List (Request A S M)) :
    host.run (rs.map untimed) = undated (host.run rs) := by
  have hRun := runFrom_undated host.init rs
  rw [undated_init] at hRun
  exact hRun

/-- The time of a ledger shows in no answer. -/
theorem answer_retimed (s : State A S M) (r : Request A S M) (now : UInt64) :
    (host.step s (retimed now r)).1 = (host.step s r).1 := by
  have hNow := congrArg Prod.fst (step_undated s (retimed now r))
  have hThen := congrArg Prod.fst (step_undated s r)
  exact hNow.symm.trans hThen

/-- A request that gives no passport is the same at every time. -/
theorem step_retimed {s : State A S M} {r : Request A S M} (h : ¬Creates s r)
    (now : UInt64) : host.step s (retimed now r) = host.step s r := by
  obtain ⟨k, i⟩ := r
  have hStep : (contract k).step (s k) (i.retimed now) =
      (contract k).step (s k) i := by
    by_cases hk : k = .passport
    · subst hk
      exact Passport.step_retimed h now
    · exact contract_step_retimed now k hk (s k) i
  show ((⟨k, ((contract k).step (s k) (i.retimed now)).1⟩ : Response),
    Function.update s k ((contract k).step (s k) (i.retimed now)).2) = _
  rw [hStep]
  rfl

/-- A passport keeps its date, whatever is requested next. -/
theorem createdAt_step {s : State A S M} {w : A} {r : PassportRecord A}
    (h : Passport.getPassport (s .passport) w = some r) (q : Request A S M) :
    ∃ r', Passport.getPassport ((host.step s q).2 .passport) w = some r' ∧
      r'.createdAt = r.createdAt := by
  obtain ⟨r', hr', -, hDate⟩ := Passport.getPassport_runFrom w h
    ([q].filterMap (inputFor Contract.passport))
  have hRun : host.runFrom s [q] .passport = Passport.machine.runFrom _ _ :=
    family_runFrom s [q] Contract.passport
  exact ⟨r', (congrArg (Passport.getPassport · w) hRun).trans hr', hDate⟩

end System

end ForgePass.Contracts
