import ForgePass.Contracts.CredentialArchive
import ForgePass.Contracts.PassportSpec
import ForgePass.Contracts.ScoreWindow
import ForgePass.Contracts.SoulboundNftSpec

/-!
# Failures are exact and atomic

For each contract `expectedFailure` says in terms of the public readers how a
call must end: the administrator's two checks come first, then the one reason
of the call itself.  In reachable states the contracts fail in exactly this
way.  The readers are not what the code consults in two places: a removal
looks at the archive counter, and an anchored score at the length of the
history; there the invariants of reachable states close the gap.

Guest storage is threaded without rollback, and a failing call leaves *any*
storage as it was, so the contracts check everything before their first write.
-/

namespace ForgePass.Contracts

open ForgePass.Verified

namespace Passport

variable {A : Type} [DecidableEq A]

/-- How a call to the passport contract must fail, if it must, in the order in
which the checks are made. An update by its owner asks for no administrator. -/
def expectedFailure (s : Store A) (i : Invocation A (Call A)) :
    Option (Failure ContractError) :=
  match i.call with
  | .initializeAdmin _ =>
      if (adminOf s).isSome then some (.error .alreadyInitialized) else none
  | .createPassport w _ => adminFailure .notInitialized (adminOf s) i.env
      (if (getPassport s w).isSome then some .passportAlreadyExists else none)
  | .updateMetadataCid w _ =>
      if w ∈ i.env.auths then
        if (getPassport s w).isNone then some (.error .passportNotFound)
        else none
      else some .trap
  | .setSybilFlag w _ => adminFailure .notInitialized (adminOf s) i.env
      (if (getPassport s w).isNone then some .passportNotFound else none)

/-- The table of the passport's failures, checked call by call in every state,
reachable or not. -/
theorem step_failure (s : Store A) (i : Invocation A (Call A)) :
    failureOf (machine.step s i).1 = expectedFailure s i := by
  obtain ⟨env, call⟩ := i
  cases call with
  | initializeAdmin a =>
      simp only [machine, guestMachine, exec, initializeAdmin_run,
        expectedFailure]
      cases adminOf s with
      | none => rfl
      | some b => rfl
  | createPassport w cid =>
      simp only [machine, guestMachine, exec, createPassport_run,
        expectedFailure]
      apply failureOf_guarded
      cases getPassport s w with
      | none => rfl
      | some r => rfl
  | updateMetadataCid w cid =>
      simp only [machine, guestMachine, exec, updateMetadataCid_run,
        expectedFailure]
      by_cases hOwner : w ∈ env.auths
      · rw [if_pos hOwner, if_pos hOwner]
        cases getPassport s w with
        | none => rfl
        | some r => rfl
      · rw [if_neg hOwner, if_neg hOwner]
        rfl
  | setSybilFlag w flag =>
      simp only [machine, guestMachine, exec, setSybilFlag_run,
        expectedFailure]
      apply failureOf_guarded
      cases getPassport s w with
      | none => rfl
      | some r => rfl

/-- A failing call of the passport writes nothing: every check comes before the
first write. -/
theorem Transition.unchanged {s s' : Store A} {i : Invocation A (Call A)}
    {e : Failure ContractError} (hStep : Transition s i (.error e) s') :
    s' = s := by
  cases hStep with
  | refused => rfl

theorem failsExactly :
    FailsExactly (machine : Machine (Store A) _ _) expectedFailure :=
  .of_transition step_transition Transition.unchanged
    fun _ i => step_failure _ i

end Passport

namespace CredentialStore

variable {A S : Type} [DecidableEq A] [DecidableEq S]

/-- How a call to the credential store must fail, if it must: told by what
callers can read, the list of archive records in place of the index. -/
def expectedFailure (s : Store A S) (i : Invocation A (Call A S)) :
    Option (Failure ContractError) :=
  match i.call with
  | .initializeAdmin _ =>
      if (adminOf s).isSome then some (.error .alreadyInitialized) else none
  | .addCredential w t sid _ _ =>
      adminFailure .notInitialized (adminOf s) i.env
        (if credentialExists s w t sid then some .credentialAlreadyExists
        else none)
  | .addArchiveRecord _ _ _ _ _ =>
      adminFailure .notInitialized (adminOf s) i.env none
  | .removeCredentials w _ => adminFailure .notInitialized (adminOf s) i.env
      (if (getArchiveRecords s w).isEmpty then some .archiveRecordRequired
      else none)

/-- While the counter that a removal consults agrees with the public reader,
the table holds; in reachable states it always does. -/
theorem step_failure {s : Store A S}
    (hGuard : ∀ w, getArchiveRecords s w = [] ↔ archiveIndex s w = 0)
    (i : Invocation A (Call A S)) :
    failureOf (machine.step s i).1 = expectedFailure s i := by
  obtain ⟨env, call⟩ := i
  cases call with
  | initializeAdmin a =>
      rw [step_initializeAdmin]
      simp only [expectedFailure]
      cases adminOf s with
      | none => rfl
      | some b => rfl
  | addCredential w t sid d h =>
      rw [step_addCredential]
      simp only [expectedFailure]
      apply failureOf_guarded
      cases credentialExists s w t sid with
      | false => rfl
      | true => rfl
  | addArchiveRecord w root count time cid =>
      rw [step_addArchiveRecord]
      simp only [expectedFailure]
      exact failureOf_guarded _ _ env s rfl
  | removeCredentials w sids =>
      rw [step_removeCredentials]
      simp only [expectedFailure]
      apply failureOf_guarded
      by_cases hIndex : archiveIndex s w = 0
      · rw [if_pos hIndex, (hGuard w).mpr hIndex]
        rfl
      · have hRecords : (getArchiveRecords s w).isEmpty ≠ true := fun hEmpty =>
          hIndex ((hGuard w).mp (List.isEmpty_iff.mp hEmpty))
        rw [if_neg hIndex, if_neg hRecords]
        rfl

/-- The failures of the credential store, in every reachable state: the table
asks the public reader for archive records where the code asks the index. -/
theorem run_failure (is : List (Invocation A (Call A S)))
    (i : Invocation A (Call A S)) :
    failureOf (machine.step (machine.run is) i).1 =
      expectedFailure (machine.run is) i :=
  step_failure (fun w => (firstSlot_run w is).read_eq_nil_iff) i

/-- A failing call of the credential store writes nothing. -/
theorem Transition.unchanged {s s' : Store A S} {i : Invocation A (Call A S)}
    {e : Failure ContractError} (hStep : Transition s i (.error e) s') :
    s' = s := by
  cases hStep with
  | refused => rfl

theorem failsExactly :
    FailsExactly (machine : Machine (Store A S) _ _) expectedFailure :=
  .of_transition step_transition Transition.unchanged run_failure

end CredentialStore

namespace TrustScore

variable {A : Type} [DecidableEq A]

/-- How a call to the trust-score contract must fail, if it must. The guard
against a history over the cap does not occur: no reachable history is. -/
def expectedFailure (s : Store A) (i : Invocation A (Call A)) :
    Option (Failure ContractError) :=
  match i.call with
  | .initializeAdmin _ =>
      if (adminOf s).isSome then some (.error .alreadyInitialized) else none
  | .anchorScore _ score _ _ _ =>
      adminFailure .notInitialized (adminOf s) i.env
        (if 100 < score then some .invalidScore else none)

/-- While no history is over the cap, the guard against it is silent, and the
table holds. -/
theorem step_failure {s : Store A}
    (hCap : ∀ w, ¬50 < (getScoreHistory s w).length)
    (i : Invocation A (Call A)) :
    failureOf (machine.step s i).1 = expectedFailure s i := by
  obtain ⟨env, call⟩ := i
  cases call with
  | initializeAdmin a =>
      simp only [machine, guestMachine, exec, initializeAdmin_run,
        expectedFailure]
      cases adminOf s with
      | none => rfl
      | some b => rfl
  | anchorScore w score version hash time =>
      simp only [machine, guestMachine, exec, anchorScore_run,
        expectedFailure]
      apply failureOf_guarded
      by_cases hScore : 100 < score
      · rw [if_pos hScore, if_pos hScore]
        rfl
      · rw [if_neg hScore, if_neg hScore, if_neg (hCap w)]
        rfl

/-- The failures of the trust-score contract, in every reachable state. -/
theorem run_failure (is : List (Invocation A (Call A)))
    (i : Invocation A (Call A)) :
    failureOf (machine.step (machine.run is) i).1 =
      expectedFailure (machine.run is) i := by
  refine step_failure ?_ i
  intro w
  rw [(mirrors_run w is).history, lastN_length]
  omega

/-- A failing call of the trust-score contract writes nothing. -/
theorem Transition.unchanged {s s' : Store A} {i : Invocation A (Call A)}
    {e : Failure ContractError} (hStep : Transition s i (.error e) s') :
    s' = s := by
  cases hStep with
  | refused => rfl

theorem failsExactly :
    FailsExactly (machine : Machine (Store A) _ _) expectedFailure :=
  .of_transition step_transition Transition.unchanged run_failure

end TrustScore

namespace SoulboundNft

variable {A M : Type} [DecidableEq A] [DecidableEq M]

/-- How a call to the badge contract must fail, if it must. A wallet has each
milestone once, ever. -/
def expectedFailure (s : Store A M) (i : Invocation A (Call A M)) :
    Option (Failure ContractError) :=
  match i.call with
  | .initializeAdmin _ =>
      if (adminOf s).isSome then some (.error .alreadyInitialized) else none
  | .mint w m _ _ => adminFailure .notInitialized (adminOf s) i.env
      (if hasBadge s w m then some .badgeAlreadyMinted else none)

/-- The table of the badge contract's failures, checked call by call in every
state. -/
theorem step_failure (s : Store A M) (i : Invocation A (Call A M)) :
    failureOf (machine.step s i).1 = expectedFailure s i := by
  obtain ⟨env, call⟩ := i
  cases call with
  | initializeAdmin a =>
      rw [step_initializeAdmin]
      simp only [expectedFailure]
      cases adminOf s with
      | none => rfl
      | some b => rfl
  | mint w m cid time =>
      rw [step_mint]
      simp only [expectedFailure]
      apply failureOf_guarded
      cases hasBadge s w m with
      | false => rfl
      | true => rfl

/-- A failing call of the badge contract writes nothing. -/
theorem Transition.unchanged {s s' : Store A M} {i : Invocation A (Call A M)}
    {e : Failure ContractError} (hStep : Transition s i (.error e) s') :
    s' = s := by
  cases hStep with
  | refused => rfl

theorem failsExactly :
    FailsExactly (machine : Machine (Store A M) _ _) expectedFailure :=
  .of_transition step_transition Transition.unchanged
    fun _ i => step_failure _ i

end SoulboundNft

/-- **Exact and atomic failures** of all four contracts. In every reachable
state a call fails exactly as the table of its contract says, with that error
or trap and with no other, and a call that fails leaves storage as it was,
although nothing is rolled back. -/
theorem failures_exact_and_atomic {A S M : Type} [DecidableEq A]
    [DecidableEq S] [DecidableEq M] :
    FailsExactly (Passport.machine (A := A)) Passport.expectedFailure ∧
      FailsExactly (CredentialStore.machine (A := A) (S := S))
        CredentialStore.expectedFailure ∧
      FailsExactly (TrustScore.machine (A := A)) TrustScore.expectedFailure ∧
      FailsExactly (SoulboundNft.machine (A := A) (M := M))
        SoulboundNft.expectedFailure :=
  ⟨Passport.failsExactly, CredentialStore.failsExactly,
    TrustScore.failsExactly, SoulboundNft.failsExactly⟩

end ForgePass.Contracts
