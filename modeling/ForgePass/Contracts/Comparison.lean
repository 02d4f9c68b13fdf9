import ForgePass.Contracts.Translation

/-!
# What the contracts look at

A translation rewrites freely what the contracts do not look at.  It could not
be freer: a rewriting that makes two names one, or an invalid score valid or
the other way round, changes an answer of some run.  So the answers show
exactly which parts of the requests they depend on.
-/

namespace ForgePass.Contracts

open ForgePass.Verified
open ForgePass.Verified.Machine

variable {A A' S S' M M' : Type}

variable [DecidableEq A] [DecidableEq S] [DecidableEq M]

/-! ## Answers that depend on a comparison -/

/-- The first creation after the bootstrap is let in exactly if the
administrator signed it; this shows whether a rewriting keeps addresses apart.
-/
theorem Passport.first_create_iff (a w : A) (env : Env A) (cid : HostString) :
    (operate a Book.blank ⟨env, .createPassport w cid⟩).1 = .ok () ↔
      a ∈ env.auths := by
  unfold operate Book.blank
  by_cases hAuth : a ∈ env.auths
  · simp [hAuth]
  · simp [hAuth]

/-- A score that the administrator signed is accepted exactly if it is valid.
-/
theorem TrustScore.first_score_iff (a w : A) (env : Env A)
    (hAuth : a ∈ env.auths) (r : ScoreSnapshot) :
    (operate a (fun _ => []) ⟨env, .anchorScore w r.score r.algorithmVersion
      r.signalHash r.computedAt⟩).1 = .ok () ↔ r.score ≤ 100 := by
  unfold operate
  by_cases hScore : r.score ≤ 100
  · simp [hAuth, hScore]
  · simp [hAuth, hScore]

/-- The second of two additions to a wallet is refused as known exactly if its
key is that of the first. -/
theorem CredentialStore.second_add_iff (a w : A) (env : Env A)
    (hAuth : a ∈ env.auths) (t t' : S) (sid sid' : HostString) (d d' : UInt64)
    (hash hash' : HostString) :
    (operateWrapped a (operateWrapped a (fun _ => .blank)
      ⟨env, .addCredential w t sid d hash⟩).2
        ⟨env, .addCredential w t' sid' d' hash'⟩).1 =
      .error (.error .credentialAlreadyExists) ↔ (t', sid') = (t, sid) := by
  have hBefore : (File.blank : File S).live.map Entry.key = [] := rfl
  have hAfter : (File.blank.claim ⟨t, sid, d, hash, false⟩).live.map Entry.key =
      [(t, sid)] := rfl
  simp only [operateWrapped, operate, hAuth, if_true, hBefore,
    List.not_mem_nil, if_false, Function.update_self, hAfter,
    List.mem_singleton]
  by_cases hKey : (t', sid') = (t, sid)
  · rw [if_pos hKey]
    exact iff_of_true rfl hKey
  · rw [if_neg hKey]
    exact iff_of_false (by simp) hKey

/-- The second of two mints to a wallet is refused exactly if it is for the
milestone of the first. -/
theorem SoulboundNft.second_mint_iff (a w : A) (env : Env A)
    (hAuth : a ∈ env.auths) (m m' : M) (cid cid' : HostString)
    (time time' : UInt64) :
    (operate a (operate a [] ⟨env, .mint w m cid time⟩).2
        ⟨env, .mint w m' cid' time'⟩).1 =
      .error (.error .badgeAlreadyMinted) ↔ m' = m := by
  simp only [operate, hAuth, if_true, List.not_mem_nil, false_and, exists_false,
    if_false, List.nil_append, List.mem_singleton, exists_eq_left, Mint.key,
    Prod.mk.injEq, true_and]
  by_cases hKey : m = m'
  · rw [if_pos hKey]
    exact iff_of_true rfl hKey.symm
  · rw [if_neg hKey]
    exact iff_of_false (by simp) (Ne.symm hKey)

/-! ## The system -/

namespace System

variable [DecidableEq A'] [DecidableEq S'] [DecidableEq M']

/-- The answers of a run, in order. -/
def answers (rs : List (Request A S M)) : List Response :=
  (host.history rs).map Prod.snd

/-- A run on one contract is answered by the register of that contract alone.
-/
theorem answers_on (k : Contract) (is : List (Invocation A (k.Call A S M))) :
    answers (is.map (Sigma.mk k)) =
      (((registryWrappedOf k).history is).map Prod.snd).map (Sigma.mk k) := by
  unfold answers
  rw [(run_keepsWrapped _).2, registryWrapped, family_history_map,
    List.map_map, List.map_map]
  rfl

/-- The rewritten runs get the answers of the runs, whatever requests are made:
no caller could tell from answers that requests are rewritten on their way. -/
def AnswersKept (re : Rewriting A A' S S' M M') : Prop :=
  ∀ rs : List (Request A S M), answers (rs.map (rewrite re)) = answers rs

namespace AnswersKept

variable {re : Rewriting A A' S S' M M'}

/-- One contract alone gets the same answers. -/
theorem on (h : AnswersKept re) (k : Contract)
    (is : List (Invocation A (k.Call A S M))) :
    ((registryWrappedOf k).history (is.map (rewriteIn re k))).map Prod.snd =
      ((registryWrappedOf k).history is).map Prod.snd := by
  have hMap : (is.map (Sigma.mk k)).map (rewrite re) =
      (is.map (rewriteIn re k)).map (Sigma.mk k) := by
    rw [List.map_map, List.map_map]
    rfl
  have hSame := h (is.map (Sigma.mk k))
  rw [hMap, answers_on, answers_on] at hSame
  exact List.map_injective_iff.mpr sigma_mk_injective hSame

theorem passport (h : AnswersKept re) (a : A)
    (i : Invocation A (Passport.Call A)) :
    (Passport.operate (re.address a) Passport.Book.blank
        (re.invoke re.passportCall i)).1 =
      (Passport.operate a Passport.Book.blank i).1 := by
  have hSame := h.on .passport [⟨⟨∅, 0⟩, .initializeAdmin a⟩, i]
  exact (List.cons.inj (List.cons.inj hSame).2).1

theorem trustScore (h : AnswersKept re) (a : A)
    (i : Invocation A (TrustScore.Call A)) :
    (TrustScore.operate (re.address a) (fun _ => [])
        (re.invoke re.scoreCall i)).1 =
      (TrustScore.operate a (fun _ => []) i).1 := by
  have hSame := h.on .trustScore [⟨⟨∅, 0⟩, .initializeAdmin a⟩, i]
  exact (List.cons.inj (List.cons.inj hSame).2).1

/-- What kept answers say of two calls on the credential store, the bootstrap
before them included. -/
theorem credentialStore (h : AnswersKept re) (a : A)
    (i j : Invocation A (CredentialStore.Call A S)) :
    (CredentialStore.operateWrapped (re.address a)
        (CredentialStore.operateWrapped (re.address a) (fun _ => .blank)
          (re.invoke re.credentialCall i)).2
        (re.invoke re.credentialCall j)).1 =
      (CredentialStore.operateWrapped a
        (CredentialStore.operateWrapped a (fun _ => .blank) i).2 j).1 := by
  have hSame := h.on .credentialStore [⟨⟨∅, 0⟩, .initializeAdmin a⟩, i, j]
  exact (List.cons.inj (List.cons.inj (List.cons.inj hSame).2).2).1

theorem soulboundNft (h : AnswersKept re) (a : A)
    (i j : Invocation A (SoulboundNft.Call A M)) :
    (SoulboundNft.operate (re.address a)
        (SoulboundNft.operate (re.address a) []
          (re.invoke re.badgeCall i)).2 (re.invoke re.badgeCall j)).1 =
      (SoulboundNft.operate a (SoulboundNft.operate a [] i).2 j).1 := by
  have hSame := h.on .soulboundNft [⟨⟨∅, 0⟩, .initializeAdmin a⟩, i, j]
  exact (List.cons.inj (List.cons.inj (List.cons.inj hSame).2).2).1

/-- A stranger who shares the administrator's name is let in. So a rewriting
that makes two addresses one is found out by a single creation. -/
theorem address_injective (h : AnswersKept re) :
    Function.Injective re.address := by
  intro a b hab
  have hSame := h.passport a ⟨⟨{b}, 0⟩, .createPassport a []⟩
  have hLetIn := (Passport.first_create_iff (re.address a) (re.address a)
    (re.env ⟨{b}, 0⟩) (re.passportCid [])).mpr
      (Finset.mem_image.mpr ⟨b, Finset.mem_singleton_self b, hab.symm⟩)
  have hOk := hSame.symm.trans hLetIn
  exact Finset.mem_singleton.mp
    ((Passport.first_create_iff a a ⟨{b}, 0⟩ []).mp hOk)

theorem snapshot_valid (h : AnswersKept re) (a : A) (r : ScoreSnapshot) :
    (re.snapshot r).score ≤ 100 ↔ r.score ≤ 100 := by
  have hSame := h.trustScore a ⟨⟨{a}, 0⟩, .anchorScore a r.score
    r.algorithmVersion r.signalHash r.computedAt⟩
  have hSigned : re.address a ∈ (re.env ⟨{a}, 0⟩).auths :=
    Finset.mem_image_of_mem _ (Finset.mem_singleton_self a)
  rw [← TrustScore.first_score_iff a a ⟨{a}, 0⟩
      (Finset.mem_singleton_self a) r, ← hSame]
  exact (TrustScore.first_score_iff _ (re.address a) _ hSigned _).symm

/-- Two credentials under one name collide: the second is refused as known. -/
theorem keys_injective (h : AnswersKept re) (a : A) (t t' : S)
    (sid sid' : HostString) :
    (re.signalType t', re.sourceId sid') = (re.signalType t, re.sourceId sid) ↔
      (t', sid') = (t, sid) := by
  have hSame := h.credentialStore a
    ⟨⟨{a}, 0⟩, .addCredential a t sid 0 []⟩
    ⟨⟨{a}, 0⟩, .addCredential a t' sid' 0 []⟩
  have hSigned : re.address a ∈ (re.env ⟨{a}, 0⟩).auths :=
    Finset.mem_image_of_mem _ (Finset.mem_singleton_self a)
  rw [← CredentialStore.second_add_iff a a ⟨{a}, 0⟩
      (Finset.mem_singleton_self a) t t' sid sid' 0 0 [] [], ← hSame]
  exact (CredentialStore.second_add_iff _ (re.address a) _ hSigned _ _ _ _ _ _
    _ _).symm

/-- Two milestones made one would refuse a mint that was accepted. -/
theorem milestoneType_injective (h : AnswersKept re) (a : A) :
    Function.Injective re.milestoneType := by
  intro m m' hm
  have hSame := h.soulboundNft a ⟨⟨{a}, 0⟩, .mint a m' [] 0⟩
    ⟨⟨{a}, 0⟩, .mint a m [] 0⟩
  have hSigned : re.address a ∈ (re.env ⟨{a}, 0⟩).auths :=
    Finset.mem_image_of_mem _ (Finset.mem_singleton_self a)
  rw [← SoulboundNft.second_mint_iff a a ⟨{a}, 0⟩
      (Finset.mem_singleton_self a) m' m [] [] 0 0, ← hSame]
  exact (SoulboundNft.second_mint_iff _ (re.address a) _ hSigned _ _ _ _ _
    _).mpr hm

/-- Whatever leaves every answer alone leaves the names apart: for each kind of
name there is a run that tells. -/
theorem faithful [Inhabited A] [Inhabited S] (h : AnswersKept re) :
    re.Faithful where
  address := h.address_injective
  signalType t t' ht := by
    have hKey := (h.keys_injective default t' t [] []).mp (by rw [ht])
    exact (Prod.mk.inj hKey).1
  milestoneType := h.milestoneType_injective default
  sourceId sid sid' hSid := by
    have hKey := (h.keys_injective default default default sid' sid).mp
      (by rw [hSid])
    exact (Prod.mk.inj hKey).2
  snapshot := h.snapshot_valid default

end AnswersKept

/-- **What the contracts look at.**  A rewriting of requests leaves the answers
of all runs alone exactly if it keeps addresses, signal types, milestones and
source ids apart and scores valid or invalid. -/
theorem answersKept_iff_faithful [Inhabited A] [Inhabited S]
    (re : Rewriting A A' S S' M M') : AnswersKept re ↔ re.Faithful := by
  constructor
  · exact AnswersKept.faithful
  · intro h rs
    have hHistory : host.history (rs.map (rewrite re)) =
        (host.history rs).map fun e => (rewrite re e.1, e.2) :=
      history_translated ⟨re, h⟩ rs
    unfold answers
    rw [hHistory, List.map_map]
    rfl

end System

end ForgePass.Contracts
