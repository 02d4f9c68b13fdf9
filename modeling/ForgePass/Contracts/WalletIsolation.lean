import ForgePass.Contracts.BadgeIsolation
import ForgePass.Contracts.CredentialStoreSpec
import ForgePass.Contracts.PassportSpec
import ForgePass.Contracts.TrustScoreSpec

/-!
# Wallets do not interfere

A run is compared with the same run from which every call about other wallets
was erased.  In the passport, credential-store and trust-score contracts all
that a call about a wallet reads besides the administrator is stored under
keys of that wallet, so `Agree` is a simulation and the wallet's answers and
readers are the same in both runs.  The badge contract, whose wallets share a
counter, has its own module.
-/

namespace ForgePass.Contracts

open ForgePass.Verified
open ForgePass.Verified.Machine

namespace Passport

variable {A : Type}

/-- The calls kept about a wallet. -/
def concerns [DecidableEq A] (w : A) (i : Invocation A (Call A)) : Bool :=
  match i.call with
  | .initializeAdmin _ => true
  | .createPassport v _ => v = w
  | .updateMetadataCid v _ => v = w
  | .setSybilFlag v _ => v = w

/-- Every reader returns the same for the wallet. -/
structure SameReads (w : A) (s s' : Store A) : Prop where
  passport : getPassport s w = getPassport s' w
  valid : isValid s w = isValid s' w

/-- All that a call about the wallet reads. -/
structure Agree (w : A) (s s' : Store A) : Prop where
  admin : adminOf s = adminOf s'
  passport : getPassport s w = getPassport s' w

theorem Agree.reads {w : A} {s s' : Store A} (h : Agree w s s') :
    SameReads w s s' := by
  refine ⟨h.passport, ?_⟩
  have hStored : s.persistentTier.get (.passport w) =
    s'.persistentTier.get (.passport w) := h.passport
  unfold isValid
  rw [hStored]

variable [DecidableEq A] {w : A} {s s' : Store A}

theorem Agree.setAdmin (h : Agree w s s') (a : A) :
    Agree w (s.setInstance .admin a) (s'.setInstance .admin a) := by
  refine ⟨by simp [adminOf], ?_⟩
  rw [getPassport_setAdmin, getPassport_setAdmin, h.passport]

theorem Agree.putPassport (h : Agree w s s') (r : PassportRecord A) :
    Agree w (putPassport s w r) (putPassport s' w r) := by
  refine ⟨h.admin, ?_⟩
  rw [getPassport_putPassport, getPassport_putPassport, if_pos rfl, if_pos rfl]

theorem Agree.putOther (h : Agree w s s') {v : A} (hOther : v ≠ w)
    (r : PassportRecord A) : Agree w (Passport.putPassport s v r) s' := by
  refine ⟨h.admin, ?_⟩
  rw [getPassport_putPassport, if_neg hOther.symm, h.passport]

/-- A kept call does the same in both runs. -/
theorem agree_kept (h : Agree w s s') {i : Invocation A (Call A)}
    (hKeep : concerns w i = true) :
    Related Eq (Agree w) (machine.step s i) (machine.step s' i) := by
  obtain ⟨env, call⟩ := i
  cases call with
  | initializeAdmin a =>
      simp only [machine, guestMachine, exec, initializeAdmin_run, ← h.admin]
      apply Related.ite
      · intro hAdmin
        exact ⟨rfl, h⟩
      · intro hAdmin
        exact ⟨rfl, h.setAdmin a⟩
  | createPassport v cid =>
      obtain rfl : v = w := of_decide_eq_true hKeep
      simp only [machine, guestMachine, exec, createPassport_run, ← h.admin,
        ← h.passport]
      refine .ite (fun hSigned => ?_) fun hSigned => ⟨rfl, h⟩
      cases getPassport s v with
      | none => exact ⟨rfl, h.putPassport _⟩
      | some r => exact ⟨rfl, h⟩
  | updateMetadataCid v cid =>
      obtain rfl : v = w := of_decide_eq_true hKeep
      simp only [machine, guestMachine, exec, updateMetadataCid_run,
        ← h.passport]
      refine .ite (fun hOwner => ?_) fun hOwner => ⟨rfl, h⟩
      cases getPassport s v with
      | none => exact ⟨rfl, h⟩
      | some r => exact ⟨rfl, h.putPassport _⟩
  | setSybilFlag v flag =>
      obtain rfl : v = w := of_decide_eq_true hKeep
      simp only [machine, guestMachine, exec, setSybilFlag_run, ← h.admin,
        ← h.passport]
      refine .ite (fun hSigned => ?_) fun hSigned => ⟨rfl, h⟩
      cases getPassport s v with
      | none => exact ⟨rfl, h⟩
      | some r => exact ⟨rfl, h.putPassport _⟩

/-- A call about another wallet is not seen. -/
theorem agree_erased (h : Agree w s s') {i : Invocation A (Call A)}
    {answer : Answer} {t : Store A} (hStep : Transition s i answer t)
    (hErase : concerns w i = false) : Agree w t s' := by
  cases hStep with
  | refused i e => exact h
  | initialized env a hAdmin => cases hErase
  | created env v cid hSigned hNone =>
      exact h.putOther (of_decide_eq_false hErase) _
  | updated env v cid r hOwner hSome =>
      exact h.putOther (of_decide_eq_false hErase) _
  | flagged env v flag r hSigned hSome =>
      exact h.putOther (of_decide_eq_false hErase) _

/-- **Isolation of passports.** Calls on other wallets change neither what is
answered to those on `w` nor what readers return for it. -/
theorem passports_isolated (w : A) (is : List (Invocation A (Call A))) :
    Noninterfering machine (concerns w) Eq (SameReads w) is := by
  have hSimulation : Simulation (machine : Machine (Store A) _ _) machine
      (Option.guard (concerns w)) (fun _ => True) (Agree w) Eq :=
    Simulation.ofKeep ⟨rfl, rfl⟩
      (fun _ _ _ _ h hKeep => agree_kept h hKeep)
      (fun s _ i _ h hErase => agree_erased h (step_transition s i) hErase)
  exact hSimulation.noninterfering (fun _ _ h => h.reads) fun _ _ => trivial

end Passport

namespace CredentialStore

variable {A S : Type}

/-- The calls kept about a wallet. -/
def concerns [DecidableEq A] (w : A) (i : Invocation A (Call A S)) : Bool :=
  match i.call with
  | .initializeAdmin _ => true
  | .addCredential v _ _ _ _ => v = w
  | .addArchiveRecord v _ _ _ _ => v = w
  | .removeCredentials v _ => v = w

/-- Every reader returns the same for the wallet. -/
structure SameReads [DecidableEq S] (w : A) (s s' : Store A S) : Prop where
  credentials : getCredentials s w = getCredentials s' w
  count : getCredentialCount s w = getCredentialCount s' w
  exist : ∀ t sid, credentialExists s w t sid = credentialExists s' w t sid
  archives : getArchiveRecords s w = getArchiveRecords s' w

/-- All that a call about the wallet reads. -/
structure Agree (w : A) (s s' : Store A S) : Prop where
  admin : adminOf s = adminOf s'
  credentials : getCredentials s w = getCredentials s' w
  counter : credentialCounter s w = credentialCounter s' w
  index : archiveIndex s w = archiveIndex s' w
  slots : ∀ i, archiveAt s w i = archiveAt s' w i

section Reads

variable [DecidableEq S] {w : A} {s s' : Store A S}

theorem Agree.exist (h : Agree w s s') (t : S) (sid : HostString) :
    credentialExists s w t sid = credentialExists s' w t sid := by
  rw [credentialExists_eq, credentialExists_eq, h.credentials]

theorem Agree.reads (h : Agree w s s') : SameReads w s s' := by
  refine ⟨h.credentials, ?_, h.exist, ?_⟩
  · rw [getCredentialCount_eq, getCredentialCount_eq, h.credentials]
  · have hSlots : archiveAt s w = archiveAt s' w := funext h.slots
    rw [getArchiveRecords_eq, getArchiveRecords_eq, h.index, hSlots]

end Reads

variable [DecidableEq A] {w : A} {s s' : Store A S}

theorem Agree.setAdmin (h : Agree w s s') (a : A) :
    Agree w (s.setInstance .admin a) (s'.setInstance .admin a) := by
  refine ⟨by simp, h.credentials, ?_, ?_, h.slots⟩
  · rw [credentialCounter_setAdmin, credentialCounter_setAdmin, h.counter]
  · rw [archiveIndex_setAdmin, archiveIndex_setAdmin, h.index]

theorem Agree.accept (h : Agree w s s') (r : CredentialRecord A S) :
    Agree w (acceptCredential s r) (acceptCredential s' r) := by
  refine ⟨?_, ?_, ?_, ?_, ?_⟩
  · rw [adminOf_acceptCredential, adminOf_acceptCredential, h.admin]
  · rw [getCredentials_acceptCredential, getCredentials_acceptCredential,
      h.credentials]
  · rw [credentialCounter_acceptCredential, credentialCounter_acceptCredential,
      h.counter]
  · rw [archiveIndex_acceptCredential, archiveIndex_acceptCredential, h.index]
  · intro i
    rw [archiveAt_acceptCredential, archiveAt_acceptCredential, h.slots]

theorem Agree.acceptOther (h : Agree w s s') {r : CredentialRecord A S}
    (hOther : r.wallet ≠ w) : Agree w (acceptCredential s r) s' := by
  refine ⟨?_, ?_, ?_, ?_, ?_⟩
  · rw [adminOf_acceptCredential, h.admin]
  · rw [getCredentials_acceptCredential, if_neg hOther.symm, h.credentials]
  · rw [credentialCounter_acceptCredential, if_neg hOther.symm, h.counter]
  · rw [archiveIndex_acceptCredential, h.index]
  · intro i
    rw [archiveAt_acceptCredential, h.slots]

theorem Agree.anchor (h : Agree w s s') (r : ArchiveRecord) :
    Agree w (anchorArchive s w r) (anchorArchive s' w r) := by
  refine ⟨?_, ?_, ?_, ?_, ?_⟩
  · rw [adminOf_anchorArchive, adminOf_anchorArchive, h.admin]
  · rw [getCredentials_anchorArchive, getCredentials_anchorArchive,
      h.credentials]
  · rw [credentialCounter_anchorArchive, credentialCounter_anchorArchive,
      h.counter]
  · rw [archiveIndex_anchorArchive, archiveIndex_anchorArchive, h.index]
  · intro i
    rw [archiveAt_anchorArchive, archiveAt_anchorArchive, h.index, h.slots]

theorem Agree.anchorOther (h : Agree w s s') {v : A} (hOther : v ≠ w)
    (r : ArchiveRecord) : Agree w (anchorArchive s v r) s' := by
  refine ⟨?_, ?_, ?_, ?_, ?_⟩
  · rw [adminOf_anchorArchive, h.admin]
  · rw [getCredentials_anchorArchive, h.credentials]
  · rw [credentialCounter_anchorArchive, h.counter]
  · rw [archiveIndex_anchorArchive, if_neg hOther.symm, h.index]
  · intro i
    have hSlot : ¬(w = v ∧ UInt32.ofNat i = archiveIndex s v) :=
      fun hEq => hOther hEq.1.symm
    rw [archiveAt_anchorArchive, if_neg hSlot, h.slots]

theorem Agree.prune (h : Agree w s s') (sids : List HostString) :
    Agree w (pruneCredentials s w sids) (pruneCredentials s' w sids) := by
  refine ⟨h.admin, ?_, h.counter, h.index, ?_⟩
  · rw [getCredentials_pruneCredentials, getCredentials_pruneCredentials,
      h.credentials]
  · intro i
    rw [archiveAt_pruneCredentials, archiveAt_pruneCredentials, h.slots]

theorem Agree.pruneOther (h : Agree w s s') {v : A} (hOther : v ≠ w)
    (sids : List HostString) : Agree w (pruneCredentials s v sids) s' := by
  refine ⟨h.admin, ?_, h.counter, h.index, ?_⟩
  · rw [getCredentials_pruneCredentials, if_neg hOther.symm, h.credentials]
  · intro i
    rw [archiveAt_pruneCredentials, h.slots]

variable [DecidableEq S]

/-- A kept call does the same in both runs. -/
theorem agree_kept (h : Agree w s s') {i : Invocation A (Call A S)}
    (hKeep : concerns w i = true) :
    Related Eq (Agree w) (machine.step s i) (machine.step s' i) := by
  obtain ⟨env, call⟩ := i
  cases call with
  | initializeAdmin a =>
      rw [step_initializeAdmin, step_initializeAdmin, ← h.admin]
      apply Related.ite
      · intro hAdmin
        exact ⟨rfl, h⟩
      · intro hAdmin
        exact ⟨rfl, h.setAdmin a⟩
  | addCredential v t sid d hash =>
      obtain rfl : v = w := of_decide_eq_true hKeep
      rw [step_addCredential, step_addCredential, ← h.admin, ← h.exist,
        ← h.counter]
      refine .ite (fun hSigned => ?_) fun hSigned => ⟨rfl, h⟩
      apply Related.ite
      · intro hExists
        exact ⟨rfl, h⟩
      · intro hExists
        exact ⟨rfl, h.accept _⟩
  | addArchiveRecord v root count time cid =>
      obtain rfl : v = w := of_decide_eq_true hKeep
      rw [step_addArchiveRecord, step_addArchiveRecord, ← h.admin]
      refine .ite (fun hSigned => ?_) fun hSigned => ⟨rfl, h⟩
      exact ⟨rfl, h.anchor _⟩
  | removeCredentials v sids =>
      obtain rfl : v = w := of_decide_eq_true hKeep
      rw [step_removeCredentials, step_removeCredentials, ← h.admin, ← h.index]
      refine .ite (fun hSigned => ?_) fun hSigned => ⟨rfl, h⟩
      apply Related.ite
      · intro hGuard
        exact ⟨rfl, h⟩
      · intro hGuard
        exact ⟨rfl, h.prune sids⟩

/-- A call about another wallet is not seen. -/
theorem agree_erased (h : Agree w s s') {i : Invocation A (Call A S)}
    {answer : Answer} {t : Store A S} (hStep : Transition s i answer t)
    (hErase : concerns w i = false) : Agree w t s' := by
  cases hStep with
  | refused i e => exact h
  | initialized env a hAdmin => cases hErase
  | accepted env v t sid d hash hSigned hFresh =>
      exact h.acceptOther (of_decide_eq_false hErase)
  | anchored env v root count time cid hSigned =>
      exact h.anchorOther (of_decide_eq_false hErase) _
  | pruned env v sids hSigned hGuard =>
      exact h.pruneOther (of_decide_eq_false hErase) sids

/-- **Isolation of credentials.** Ids and archive slots come from counters of
the wallet, so they too are the same without the calls on other wallets. -/
theorem credentials_isolated (w : A) (is : List (Invocation A (Call A S))) :
    Noninterfering machine (concerns w) Eq (SameReads w) is := by
  have hSimulation : Simulation (machine : Machine (Store A S) _ _) machine
      (Option.guard (concerns w)) (fun _ => True) (Agree w) Eq :=
    Simulation.ofKeep ⟨rfl, rfl, rfl, rfl, fun _ => rfl⟩
      (fun _ _ _ _ h hKeep => agree_kept h hKeep)
      (fun s _ i _ h hErase => agree_erased h (step_transition s i) hErase)
  exact hSimulation.noninterfering (fun _ _ h => h.reads) fun _ _ => trivial

end CredentialStore

namespace TrustScore

variable {A : Type}

/-- The calls kept about a wallet. -/
def concerns [DecidableEq A] (w : A) (i : Invocation A (Call A)) : Bool :=
  match i.call with
  | .initializeAdmin _ => true
  | .anchorScore v _ _ _ _ => v = w

/-- Every reader returns the same for the wallet. -/
structure SameReads (w : A) (s s' : Store A) : Prop where
  current : getCurrentScore s w = getCurrentScore s' w
  history : getScoreHistory s w = getScoreHistory s' w

/-- All that a call about the wallet reads, and what it mirrors. -/
structure Agree (w : A) (s s' : Store A) : Prop where
  admin : adminOf s = adminOf s'
  reads : SameReads w s s'

variable [DecidableEq A] {w : A} {s s' : Store A}

theorem Agree.setAdmin (h : Agree w s s') (a : A) :
    Agree w (s.setInstance .admin a) (s'.setInstance .admin a) := by
  refine ⟨by simp, ?_, h.reads.history⟩
  rw [getCurrentScore_setAdmin, getCurrentScore_setAdmin, h.reads.current]

theorem Agree.record (h : Agree w s s') (snap : ScoreSnapshot) :
    Agree w (recordScore s w snap) (recordScore s' w snap) := by
  refine ⟨?_, ?_, ?_⟩
  · rw [adminOf_recordScore, adminOf_recordScore, h.admin]
  · rw [getCurrentScore_recordScore, getCurrentScore_recordScore,
      h.reads.current]
  · rw [getScoreHistory_recordScore, getScoreHistory_recordScore,
      h.reads.history]

theorem Agree.recordOther (h : Agree w s s') {v : A} (hOther : v ≠ w)
    (snap : ScoreSnapshot) : Agree w (recordScore s v snap) s' := by
  refine ⟨?_, ?_, ?_⟩
  · rw [adminOf_recordScore, h.admin]
  · rw [getCurrentScore_recordScore, if_neg hOther.symm, h.reads.current]
  · rw [getScoreHistory_recordScore, if_neg hOther.symm, h.reads.history]

/-- A kept call does the same in both runs. -/
theorem agree_kept (h : Agree w s s') {i : Invocation A (Call A)}
    (hKeep : concerns w i = true) :
    Related Eq (Agree w) (machine.step s i) (machine.step s' i) := by
  obtain ⟨env, call⟩ := i
  cases call with
  | initializeAdmin a =>
      simp only [machine, guestMachine, exec, initializeAdmin_run, ← h.admin]
      apply Related.ite
      · intro hAdmin
        exact ⟨rfl, h⟩
      · intro hAdmin
        exact ⟨rfl, h.setAdmin a⟩
  | anchorScore v score version hash time =>
      obtain rfl : v = w := of_decide_eq_true hKeep
      simp only [machine, guestMachine, exec, anchorScore_run, ← h.admin,
        ← h.reads.history]
      refine .ite (fun hSigned => ?_) fun hSigned => ⟨rfl, h⟩
      refine .ite (fun hScore => ⟨rfl, h⟩) fun hScore => ?_
      apply Related.ite
      · intro hCap
        exact ⟨rfl, h⟩
      · intro hCap
        exact ⟨rfl, h.record _⟩

/-- A call about another wallet is not seen. -/
theorem agree_erased (h : Agree w s s') {i : Invocation A (Call A)}
    {answer : Answer} {t : Store A} (hStep : Transition s i answer t)
    (hErase : concerns w i = false) : Agree w t s' := by
  cases hStep with
  | refused i e => exact h
  | initialized env a hAdmin => cases hErase
  | anchored env v score version hash time hSigned hScore =>
      exact h.recordOther (of_decide_eq_false hErase) _

/-- **Isolation of scores.** The window of a wallet and both of its mirrors
depend on the calls on that wallet alone. -/
theorem scores_isolated (w : A) (is : List (Invocation A (Call A))) :
    Noninterfering machine (concerns w) Eq (SameReads w) is := by
  have hSimulation : Simulation (machine : Machine (Store A) _ _) machine
      (Option.guard (concerns w)) (fun _ => True) (Agree w) Eq :=
    Simulation.ofKeep ⟨rfl, rfl, rfl⟩
      (fun _ _ _ _ h hKeep => agree_kept h hKeep)
      (fun s _ i _ h hErase => agree_erased h (step_transition s i) hErase)
  exact hSimulation.noninterfering (fun _ _ h => h.reads) fun _ _ => trivial

end TrustScore

/-! ## All four contracts -/

/-- **Wallet noninterference.**  A run and the run reduced to `initialize` and
the calls about one wallet cannot be told apart at that wallet: in three
contracts answers and readers are the same, in the badge contract they are the
same up to a strictly increasing renumbering of its badges. -/
theorem wallet_noninterference {A S M : Type} [DecidableEq A] [DecidableEq S]
    [DecidableEq M] (w : A) :
    (∀ is, Noninterfering Passport.machine (Passport.concerns w) Eq
      (Passport.SameReads w) is) ∧
    (∀ is, Noninterfering CredentialStore.machine
      (CredentialStore.concerns (S := S) w) Eq (CredentialStore.SameReads w)
      is) ∧
    (∀ is, Noninterfering TrustScore.machine (TrustScore.concerns w) Eq
      (TrustScore.SameReads w) is) ∧
    (∀ is : List (Invocation A (SoulboundNft.Call A M)),
      SoulboundNft.machine.Along SoulboundNft.CounterBelowMax is →
      ∃ f : UInt64 → UInt64,
        (∀ r ∈ SoulboundNft.getBadgesForWallet (SoulboundNft.machine.run is) w,
          ∀ r' ∈ SoulboundNft.getBadgesForWallet (SoulboundNft.machine.run is)
            w, r.badgeId < r'.badgeId → f r.badgeId < f r'.badgeId) ∧
        Noninterfering SoulboundNft.machine (SoulboundNft.concerns w)
          (fun answer answer' =>
            answer' = SoulboundNft.renumberAnswer f answer)
          (SoulboundNft.RenumberedReads f w) is) :=
  ⟨Passport.passports_isolated w, CredentialStore.credentials_isolated w,
    TrustScore.scores_isolated w,
    fun _ hBelow => SoulboundNft.badges_isolated w hBelow⟩

/-- Wallet 7 of the sample holds badges 1 and 3; on its own, 1 and 2. -/
theorem wallet_noninterference_sampleMints :
    ∃ f : UInt64 → UInt64,
      SoulboundNft.getBadgesForWallet (SoulboundNft.machine.run
          (SoulboundNft.sampleMints.filter (SoulboundNft.concerns 7))) 7 =
        (SoulboundNft.getBadgesForWallet
          (SoulboundNft.machine.run SoulboundNft.sampleMints) 7).map
            (SoulboundNft.renumber f) := by
  obtain ⟨f, -, h⟩ := (wallet_noninterference (S := SignalType)
    (M := MilestoneType) (7 : Nat)).2.2.2 SoulboundNft.sampleMints (by decide)
  exact ⟨f, (h.viewed _ (List.prefix_refl _)).badges⟩

end ForgePass.Contracts
