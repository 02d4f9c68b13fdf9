import ForgePass.Contracts.Conflicts
import ForgePass.Contracts.CredentialStoreSpec
import ForgePass.Contracts.System
import ForgePass.Verified.Stillness

/-!
# Requests that change nothing

For each contract, which calls change its storage.  A call that is turned down
never does.  Of those that get in, an update or a flag may find what it brings
already there, a removal may find nothing to remove, and a score may find its
window full of copies of it.  All others leave a trace.

So it is known which requests may be slipped into a run unnoticed.
-/

namespace ForgePass.Contracts

open ForgePass.Verified
open ForgePass.Verified.Machine

namespace Passport

variable {A : Type}

/-- The call finds something to change. -/
def Changes (s : Store A) (i : Invocation A (Call A)) : Prop :=
  match i.call with
  | .initializeAdmin _ => adminOf s = none
  | .createPassport w _ =>
      SignedBy (adminOf s) i.env ∧ getPassport s w = none
  | .updateMetadataCid w cid =>
      w ∈ i.env.auths ∧ ∃ r, getPassport s w = some r ∧ r.ipfsCid ≠ cid
  | .setSybilFlag w flag =>
      SignedBy (adminOf s) i.env ∧
        ∃ r, getPassport s w = some r ∧ r.sybilFlagged ≠ flag

variable [DecidableEq A]

/-- Where a record is there, amending it is all that can happen. -/
theorem amend_still_iff {s : Store A} {w : A} {r r' : PassportRecord A}
    (hGiven : getPassport s w = some r) :
    putPassport s w r' = s ↔ r = r' := by
  unfold getPassport at hGiven
  unfold putPassport
  rw [Ledger.setPersistent_eq_self_iff, hGiven, Option.some.injEq]

theorem still_iff (s : Store A) (i : Invocation A (Call A)) :
    machine.Still s i ↔ ¬Changes s i := by
  obtain ⟨env, call⟩ := i
  cases call with
  | initializeAdmin a =>
      show (initializeAdmin a env s).2 = s ↔ _
      rw [initializeAdmin_run]
      exact bootstrap_still_iff s .admin a _ _
  | createPassport w cid =>
      show (createPassport w cid env s).2 = s ↔
        ¬(SignedBy (adminOf s) env ∧ getPassport s w = none)
      rw [createPassport_run]
      by_cases hSigned : SignedBy (adminOf s) env
      · rw [if_pos hSigned]
        cases hGiven : getPassport s w with
        | none =>
            unfold getPassport at hGiven
            simp [hSigned, putPassport, Ledger.setPersistent_eq_self_iff, hGiven]
        | some r => simp
      · rw [if_neg hSigned]
        exact iff_of_true rfl fun h => hSigned h.1
  | updateMetadataCid w cid =>
      show (updateMetadataCid w cid env s).2 = s ↔
        ¬(w ∈ env.auths ∧ ∃ r, getPassport s w = some r ∧ r.ipfsCid ≠ cid)
      rw [updateMetadataCid_run]
      by_cases hOwner : w ∈ env.auths
      · rw [if_pos hOwner]
        cases hGiven : getPassport s w with
        | none => simp
        | some r =>
            show putPassport s w { r with ipfsCid := cid } = s ↔ _
            rw [amend_still_iff hGiven]
            obtain ⟨v, cid', date, flag⟩ := r
            simp [hOwner]
      · rw [if_neg hOwner]
        exact iff_of_true rfl fun h => hOwner h.1
  | setSybilFlag w flag =>
      show (setSybilFlag w flag env s).2 = s ↔
        ¬(SignedBy (adminOf s) env ∧
          ∃ r, getPassport s w = some r ∧ r.sybilFlagged ≠ flag)
      rw [setSybilFlag_run]
      by_cases hSigned : SignedBy (adminOf s) env
      · rw [if_pos hSigned]
        cases hGiven : getPassport s w with
        | none => simp
        | some r =>
            show putPassport s w { r with sybilFlagged := flag } = s ↔ _
            rw [amend_still_iff hGiven]
            obtain ⟨v, cid, date, flag'⟩ := r
            simp [hSigned]
      · rw [if_neg hSigned]
        exact iff_of_true rfl fun h => hSigned h.1

end Passport

namespace CredentialStore

variable {A S : Type} [DecidableEq A]

/-- A removal writes the live set, if only an empty one. So it changes storage
even where it removes nothing, the first time. -/
theorem pruneCredentials_eq_self_iff (s : Store A S) (w : A)
    (sids : List HostString) :
    pruneCredentials s w sids = s ↔
      s.persistentTier.has (.credentials w) = true ∧
        ∀ r ∈ getCredentials s w, r.sourceId ∉ sids := by
  unfold pruneCredentials getCredentials Storage.has
  rw [Ledger.setPersistent_eq_self_iff]
  cases s.persistentTier.get (.credentials w) with
  | none => simp
  | some l =>
      rw [Option.some.injEq, Option.getD_some, eq_comm]
      simp [dropBy]

variable [DecidableEq S]

/-- The call finds something to change. -/
def Changes (s : Store A S) (i : Invocation A (Call A S)) : Prop :=
  match i.call with
  | .initializeAdmin _ => adminOf s = none
  | .addCredential w t sid _ _ =>
      SignedBy (adminOf s) i.env ∧ credentialExists s w t sid = false
  | .addArchiveRecord _ _ _ _ _ => SignedBy (adminOf s) i.env
  | .removeCredentials w sids =>
      SignedBy (adminOf s) i.env ∧ archiveIndex s w ≠ 0 ∧
        (s.persistentTier.has (.credentials w) = true →
          ∃ r ∈ getCredentials s w, r.sourceId ∈ sids)

theorem still_iff (s : Store A S) (i : Invocation A (Call A S)) :
    machine.Still s i ↔ ¬Changes s i := by
  obtain ⟨env, call⟩ := i
  unfold Still
  cases call with
  | initializeAdmin a =>
      rw [step_initializeAdmin]
      exact bootstrap_still_iff s .admin a _ _
  | addCredential w t sid d hash =>
      rw [step_addCredential]
      by_cases hSigned : SignedBy (adminOf s) env
      · rw [if_pos hSigned]
        by_cases hHeld : credentialExists s w t sid = true
        · rw [if_pos hHeld]
          refine iff_of_true rfl fun h => ?_
          exact Bool.false_ne_true (h.2.symm.trans hHeld)
        · rw [if_neg hHeld]
          refine iff_of_false (fun hSame => ?_) fun h => h
            ⟨hSigned, Bool.eq_false_iff.mpr hHeld⟩
          -- one credential more is live
          have hRead := congrArg (fun s => (getCredentials s w).length) hSame
          simp at hRead
      · rw [if_neg hSigned]
        exact iff_of_true rfl fun h => hSigned h.1
  | addArchiveRecord w root count time cid =>
      rw [step_addArchiveRecord]
      by_cases hSigned : SignedBy (adminOf s) env
      · rw [if_pos hSigned]
        refine iff_of_false (fun hSame => ?_) fun h => h hSigned
        have hRead := congrArg (archiveIndex · w) hSame
        simp at hRead
      · rw [if_neg hSigned]
        exact iff_of_true rfl hSigned
  | removeCredentials w sids =>
      rw [step_removeCredentials]
      by_cases hSigned : SignedBy (adminOf s) env
      · rw [if_pos hSigned]
        by_cases hGuard : archiveIndex s w = 0
        · rw [if_pos hGuard]
          exact iff_of_true rfl fun h => h.2.1 hGuard
        · rw [if_neg hGuard]
          show pruneCredentials s w sids = s ↔ _
          rw [pruneCredentials_eq_self_iff]
          simp [Changes, hSigned, hGuard]
      · rw [if_neg hSigned]
        exact iff_of_true rfl fun h => hSigned h.1

end CredentialStore

namespace TrustScore

variable {A : Type}

/-- The call finds something to change. -/
def Changes (s : Store A) (i : Invocation A (Call A)) : Prop :=
  match i.call with
  | .initializeAdmin _ => adminOf s = none
  | .anchorScore w score version hash time =>
      SignedBy (adminOf s) i.env ∧ score ≤ 100 ∧
        getScoreHistory s w ≠ List.replicate 50 ⟨score, version, hash, time⟩

variable [DecidableEq A]

theorem still_iff (is : List (Invocation A (Call A)))
    (i : Invocation A (Call A)) :
    machine.Still (machine.run is) i ↔ ¬Changes (machine.run is) i := by
  obtain ⟨c, hc⟩ := run_store is
  rw [hc]
  obtain ⟨env, call⟩ := i
  cases call with
  | initializeAdmin a =>
      show (initializeAdmin a env _).2 = _ ↔ ¬adminOf _ = none
      rw [initializeAdmin_run]
      exact bootstrap_still_iff (store c) .admin a _ _
  | anchorScore w score version hash time =>
      cases c with
      | fresh =>
          have hUnsigned : ¬SignedBy (adminOf (store (A := A) .fresh)) env :=
            not_signedBy_none env
          refine iff_of_true ?_ fun h => hUnsigned h.1
          show (anchorScore w score version hash time env _).2 = _
          rw [anchorScore_run, if_neg hUnsigned]
      | installed a book =>
          unfold Still
          rw [step_anchorScore]
          by_cases hAuth : a ∈ env.auths
          · rw [if_pos hAuth]
            by_cases hScore : score ≤ 100
            · have hWindow : (book w).push ⟨score, version, hash, time⟩ hScore =
                  book w ↔ (book w).scores =
                    List.replicate 50 ⟨score, version, hash, time⟩ := by
                rw [← pushCapped_eq_self_iff (by decide), Window.ext_iff]
                rfl
              rw [dif_pos hScore]
              refine (celled a).injective.eq_iff.trans ?_
              rw [Function.update_eq_self_iff, hWindow]
              simp [Changes, hAuth, hScore]
            · rw [dif_neg hScore]
              exact iff_of_true rfl fun h => hScore h.2.1
          · rw [if_neg hAuth]
            exact iff_of_true rfl fun h => hAuth (by simpa using h.1)

end TrustScore

namespace SoulboundNft

variable {A M : Type} [DecidableEq A] [DecidableEq M]

/-- The call finds something to change. -/
def Changes (s : Store A M) (i : Invocation A (Call A M)) : Prop :=
  match i.call with
  | .initializeAdmin _ => adminOf s = none
  | .mint w m _ _ => SignedBy (adminOf s) i.env ∧ hasBadge s w m = false

theorem still_iff (s : Store A M) (i : Invocation A (Call A M)) :
    machine.Still s i ↔ ¬Changes s i := by
  obtain ⟨env, call⟩ := i
  unfold Still
  cases call with
  | initializeAdmin a =>
      rw [step_initializeAdmin]
      exact bootstrap_still_iff s .admin a _ _
  | mint w m cid time =>
      rw [step_mint]
      by_cases hSigned : SignedBy (adminOf s) env
      · rw [if_pos hSigned]
        by_cases hHeld : hasBadge s w m = true
        · rw [if_pos hHeld]
          refine iff_of_true rfl fun h => ?_
          exact Bool.false_ne_true (h.2.symm.trans hHeld)
        · rw [if_neg hHeld]
          refine iff_of_false (fun hSame => ?_) fun h => h
            ⟨hSigned, Bool.eq_false_iff.mpr hHeld⟩
          have hRead := congrArg (hasBadge · w m) hSame
          simp [hHeld] at hRead
      · rw [if_neg hSigned]
        exact iff_of_true rfl fun h => hSigned h.1

end SoulboundNft

namespace System

variable {A S M : Type} [DecidableEq A] [DecidableEq S] [DecidableEq M]

/-- The call finds something to change in its contract. -/
def ChangesIn : (k : Contract) → k.Store A S M → Invocation A (k.Call A S M) →
    Prop
  | .passport => Passport.Changes
  | .credentialStore => CredentialStore.Changes
  | .trustScore => TrustScore.Changes
  | .soulboundNft => SoulboundNft.Changes

theorem still_iff : ∀ (k : Contract) (is : List (Invocation A (k.Call A S M)))
    (i : Invocation A (k.Call A S M)),
    (contract k).Still ((contract k).run is) i ↔
      ¬ChangesIn k ((contract k).run is) i
  | .passport => fun _ i => Passport.still_iff _ i
  | .credentialStore => fun _ i => CredentialStore.still_iff _ i
  | .trustScore => TrustScore.still_iff
  | .soulboundNft => fun _ i => SoulboundNft.still_iff _ i

/-- **What goes unnoticed.**  Further requests among those of a run leave it
everywhere where it would be without them, if and only if none of them finds
anything to change where it arrives. -/
theorem padding_unnoticed_iff (cs : List (Bool × Request A S M)) :
    (∀ p, p <+: cs → host.run (arriving p) = host.run (genuine p)) ↔
      ∀ p r, p ++ [(false, r)] <+: cs →
        ¬ChangesIn r.1 (host.run (genuine p) r.1) r.2 := by
  rw [padded_run_iff]
  refine forall₂_congr fun p r => imp_congr_right fun _ => ?_
  obtain ⟨k, i⟩ := r
  have hRun : host.run (genuine p) k =
      (contract k).run ((genuine p).filterMap (inputFor k)) :=
    family_run (genuine p) k
  have hStill : host.Still (host.run (genuine p)) ⟨k, i⟩ ↔
      (contract k).Still (host.run (genuine p) k) i :=
    @still_family_iff _ _ _ _ _ contract (host.run (genuine p)) k i
  rw [hStill, hRun]
  exact still_iff k _ i

end System

end ForgePass.Contracts
