import ForgePass.Contracts.Conflicts
import ForgePass.Contracts.CredentialRemoval
import ForgePass.Contracts.System
import ForgePass.Verified.Redelivery

/-!
# Requests delivered more than once

A backend that got no answer sends its request again.  Most requests can be
repeated at will: the second one is turned down, or writes what is there
already.  The exceptions are the two calls that append without looking, an
archive record and a score: each delivery leaves one more entry, unless the
score window is full of copies already.
-/

namespace ForgePass.Contracts

open ForgePass.Verified
open ForgePass.Verified.Machine

namespace Passport

variable {A : Type} [DecidableEq A]

theorem idempotent (s : Store A) (i : Invocation A (Call A)) :
    machine.Idempotent s i := by
  have hStep := step_transition s i
  unfold Idempotent
  generalize (machine.step s i).1 = answer at hStep
  generalize hNext : (machine.step s i).2 = s' at hStep
  cases hStep with
  | refused i e => exact hNext
  | initialized env a hAdmin =>
      show (initializeAdmin a env _).2 = _
      rw [initializeAdmin_run]
      rfl
  | created env w cid hSigned hNone =>
      show (createPassport w cid env _).2 = _
      rw [createPassport_run, adminOf_putPassport, if_pos hSigned,
        getPassport_putPassport, if_pos rfl]
  | updated env w cid r hOwner hSome =>
      have hRead : getPassport (putPassport s w { r with ipfsCid := cid }) w =
          some { r with ipfsCid := cid } := by
        rw [getPassport_putPassport, if_pos rfl]
      show (updateMetadataCid w cid env _).2 = _
      rw [updateMetadataCid_run, if_pos hOwner, hRead]
      exact putPassport_eq_self hRead
  | flagged env w flag r hSigned hSome =>
      have hRead : getPassport (putPassport s w { r with sybilFlagged := flag })
          w = some { r with sybilFlagged := flag } := by
        rw [getPassport_putPassport, if_pos rfl]
      show (setSybilFlag w flag env _).2 = _
      rw [setSybilFlag_run, adminOf_putPassport, if_pos hSigned, hRead]
      exact putPassport_eq_self hRead

end Passport

namespace SoulboundNft

variable {A M : Type} [DecidableEq A] [DecidableEq M]

theorem idempotent (s : Store A M) (i : Invocation A (Call A M)) :
    machine.Idempotent s i := by
  have hStep := step_transition s i
  unfold Idempotent
  generalize (machine.step s i).1 = answer at hStep
  generalize hNext : (machine.step s i).2 = s' at hStep
  cases hStep with
  | refused i e => exact hNext
  | initialized env a hAdmin =>
      rw [step_initializeAdmin]
      rfl
  | minted env w m cid time hSigned hFresh =>
      have hMinted : hasBadge
          (issueBadge s ⟨badgeCounter s + 1, w, m, cid, time⟩) w m = true := by
        simp
      rw [step_mint, adminOf_issueBadge, if_pos hSigned, if_pos hMinted]

end SoulboundNft

namespace CredentialStore

variable {A S : Type} [DecidableEq A] [DecidableEq S]

/-- An archive record that gets in. -/
def Appends (s : Store A S) (i : Invocation A (Call A S)) : Prop :=
  match i.call with
  | .addArchiveRecord _ _ _ _ _ => SignedBy (adminOf s) i.env
  | _ => False

theorem idempotent_iff (s : Store A S) (i : Invocation A (Call A S)) :
    machine.Idempotent s i ↔ ¬Appends s i := by
  have hStep := step_transition s i
  unfold Idempotent
  generalize hAnswer : (machine.step s i).1 = answer at hStep
  generalize hNext : (machine.step s i).2 = s' at hStep
  cases hStep with
  | refused i e =>
      refine ⟨fun _ => ?_, fun _ => hNext⟩
      obtain ⟨env, call⟩ := i
      cases call with
      | initializeAdmin a => exact id
      | addCredential w t sid d h => exact id
      | addArchiveRecord w root count time cid =>
          intro hAppends
          have hSigned : SignedBy (adminOf s) env := hAppends
          rw [step_addArchiveRecord, if_pos hSigned] at hAnswer
          cases hAnswer
      | removeCredentials w sids => exact id
  | initialized env a hAdmin =>
      rw [step_initializeAdmin]
      exact ⟨fun _ => id, fun _ => rfl⟩
  | accepted env w t sid d h hSigned hFresh =>
      have hLive : credentialExists (acceptCredential s
          ⟨credentialCounter s w + 1, w, t, sid, d, h⟩) w t sid = true := by
        rw [credentialExists_iff_mem]
        simp [dedupKey]
      rw [step_addCredential, adminOf_acceptCredential, if_pos hSigned,
        if_pos hLive]
      exact ⟨fun _ => id, fun _ => rfl⟩
  | anchored env w root count time cid hSigned =>
      rw [step_addArchiveRecord, adminOf_anchorArchive, if_pos hSigned]
      refine ⟨fun hSame => ?_, fun hNot => absurd hSigned hNot⟩
      have hIndex := congrArg (archiveIndex · w) hSame
      simp at hIndex
  | pruned env w sids hSigned hGuard =>
      rw [step_removeCredentials, adminOf_pruneCredentials, if_pos hSigned,
        archiveIndex_pruneCredentials, if_neg hGuard,
        pruneCredentials_pruneCredentials]
      exact ⟨fun _ => id, fun _ => pruneCredentials_congr (by simp)⟩

end CredentialStore

namespace TrustScore

variable {A : Type} [DecidableEq A]

/-- A score that gets in and does not leave its window full of copies. -/
def Appends (s : Store A) (i : Invocation A (Call A)) : Prop :=
  match i.call with
  | .anchorScore w score version hash time =>
      SignedBy (adminOf s) i.env ∧ score ≤ 100 ∧
        pushCapped 50 (getScoreHistory s w) ⟨score, version, hash, time⟩ ≠
          List.replicate 50 ⟨score, version, hash, time⟩
  | _ => False

omit [DecidableEq A] in
/-- One wallet's window takes a score twice as it takes it once exactly if it
is full of it then. -/
theorem push_twice_iff (book : Book A) (w : A) (snap : ScoreSnapshot)
    (h : snap.score ≤ 100) :
    ((book w).push snap h).push snap h = (book w).push snap h ↔
      pushCapped 50 (book w).scores snap = List.replicate 50 snap := by
  rw [← pushCapped_eq_self_iff (by decide), Window.ext_iff]
  rfl

theorem initializeAdmin_idempotent (s : Store A) (env : Env A) (a : A) :
    machine.Idempotent s ⟨env, .initializeAdmin a⟩ := by
  cases hAdmin : adminOf s with
  | none =>
      show (initializeAdmin a env (initializeAdmin a env s).2).2 =
        (initializeAdmin a env s).2
      rw [initializeAdmin_run a env s, hAdmin, initializeAdmin_run]
      rfl
  | some b =>
      apply Idempotent.of_still
      show (initializeAdmin a env s).2 = s
      rw [initializeAdmin_run, hAdmin]
      rfl

theorem idempotent_iff (is : List (Invocation A (Call A)))
    (i : Invocation A (Call A)) :
    machine.Idempotent (machine.run is) i ↔ ¬Appends (machine.run is) i := by
  obtain ⟨c, hc⟩ := run_store is
  rw [hc]
  obtain ⟨env, call⟩ := i
  cases call with
  | initializeAdmin a =>
      exact iff_of_true (initializeAdmin_idempotent _ env a) id
  | anchorScore w score version hash time =>
      cases c with
      | fresh =>
          have hUnsigned : ¬SignedBy (adminOf (store (A := A) .fresh)) env :=
            not_signedBy_none env
          refine iff_of_true (.of_still ?_) fun h => hUnsigned h.1
          show (anchorScore w score version hash time env _).2 = _
          rw [anchorScore_run, if_neg hUnsigned]
      | installed a book =>
          by_cases hAuth : a ∈ env.auths
          · by_cases hScore : score ≤ 100
            · have hAppends : Appends (store (.installed a book))
                  ⟨env, .anchorScore w score version hash time⟩ ↔
                  ((book w).push ⟨score, version, hash, time⟩ hScore).push
                    ⟨score, version, hash, time⟩ hScore ≠
                  (book w).push ⟨score, version, hash, time⟩ hScore := by
                rw [Ne, push_twice_iff]
                simp [Appends, hAuth, hScore]
              unfold Idempotent
              rw [step_anchorScore, if_pos hAuth, dif_pos hScore,
                step_anchorScore, if_pos hAuth, dif_pos hScore,
                Function.update_self, Function.update_idem, hAppends, not_not]
              exact (celled a).injective.eq_iff.trans
                (Function.update_injective book w).eq_iff
            · refine iff_of_true (.of_still ?_) fun h => hScore h.2.1
              rw [step_anchorScore, if_pos hAuth, dif_neg hScore]
          · refine iff_of_true (.of_still ?_) fun h => hAuth (by simpa using h.1)
            rw [step_anchorScore, if_neg hAuth]

end TrustScore

namespace System

variable {A S M : Type} [DecidableEq A] [DecidableEq S] [DecidableEq M]

/-- Calls that leave one entry more with each delivery. Every other call,
delivered again at once, changes nothing any more. -/
def AppendsIn : (k : Contract) → k.Store A S M → Invocation A (k.Call A S M) →
    Prop
  | .passport => fun _ _ => False
  | .credentialStore => CredentialStore.Appends
  | .trustScore => TrustScore.Appends
  | .soulboundNft => fun _ _ => False

theorem idempotent_iff : ∀ (k : Contract)
    (is : List (Invocation A (k.Call A S M))) (i : Invocation A (k.Call A S M)),
    (contract k).Idempotent ((contract k).run is) i ↔
      ¬AppendsIn k ((contract k).run is) i
  | .passport => fun _ i => iff_of_true (Passport.idempotent _ i) id
  | .credentialStore => fun _ i => CredentialStore.idempotent_iff _ i
  | .trustScore => TrustScore.idempotent_iff
  | .soulboundNft => fun _ i => iff_of_true (SoulboundNft.idempotent _ i) id

/-- In a reached state a request is idempotent unless it appends. What a call
checks and then writes once is the same the second time. -/
theorem request_idempotent_iff (rs : List (Request A S M))
    (i : Request A S M) :
    host.Idempotent (host.run rs) i ↔
      ¬AppendsIn i.1 (host.run rs i.1) i.2 := by
  obtain ⟨k, i⟩ := i
  have hRun : host.run rs k = (contract k).run (rs.filterMap (inputFor k)) :=
    family_run rs k
  have hIdempotent : host.Idempotent (host.run rs) ⟨k, i⟩ ↔
      (contract k).Idempotent (host.run rs k) i :=
    @idempotent_family_iff _ _ _ _ _ contract (host.run rs) k i
  rw [hIdempotent, hRun]
  exact idempotent_iff k _ i

end System

end ForgePass.Contracts
