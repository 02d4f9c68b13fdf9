import ForgePass.Contracts.CredentialStoreSpec
import ForgePass.Contracts.ScoreWindow
import ForgePass.Contracts.SoulboundNftSpec
import ForgePass.Verified.Footprint

/-!
# The size of instance storage

Three contracts keep some of their per-wallet data in the instance tier:
counters, the latest score and the duplicate flags.  The number of instance
keys is therefore linear in the number of wallets served, whatever the length
of the run, and no constant bounds it for all runs.
-/

namespace ForgePass.Contracts

open ForgePass.Verified
open ForgePass.Verified.Ledger

namespace TrustScore

variable {A : Type}

/-- The wallet that an accepted call served. -/
def servedWallet : Invocation A (Call A) × Answer → Option A
  | (⟨_, .anchorScore w _ _ _ _⟩, .ok _) => some w
  | _ => none

/-- The two instance keys of a wallet. -/
def walletKey : Bool → A → DataKey A
  | true, w => .currentScore w
  | false, w => .snapshotCount w

variable [DecidableEq A]

theorem instanceKeys_recordScore (s : Store A) (w : A) (snap : ScoreSnapshot) :
    instanceKeys (recordScore s w snap) =
      insert (.snapshotCount w) (insert (.currentScore w) (instanceKeys s)) := by
  simp [recordScore]

/-- A score adds at most the two instance keys of its wallet. -/
theorem instanceKeys_step {s s' : Store A} {i : Invocation A (Call A)}
    {answer : Answer} (hStep : Transition s i answer s') :
    instanceKeys s' ⊆ instanceKeys s ∪
      ownedKeys {.admin} walletKey (servedWallet (i, answer)).toFinset := by
  cases hStep with
  | refused i e => exact Set.subset_union_left
  | initialized env a hAdmin =>
      rw [instanceKeys_setInstance, Set.insert_subset_iff]
      refine ⟨.inr (.inl ?_), Set.subset_union_left⟩
      exact Finset.mem_singleton_self _
  | anchored env w score version hash time hSigned hScore =>
      have hServed : w ∈ (servedWallet (⟨env,
          .anchorScore w score version hash time⟩, .ok ())).toFinset :=
        Option.mem_toFinset.mpr rfl
      rw [instanceKeys_recordScore, Set.insert_subset_iff,
        Set.insert_subset_iff]
      exact ⟨.inr (.inr ⟨false, w, hServed, rfl⟩),
        .inr (.inr ⟨true, w, hServed, rfl⟩), Set.subset_union_left⟩

/-- No call takes an instance key away. -/
theorem instanceKeys_grow {s s' : Store A} {i : Invocation A (Call A)}
    {answer : Answer} (hStep : Transition s i answer s') :
    instanceKeys s ⊆ instanceKeys s' := by
  cases hStep with
  | refused i e => exact subset_rfl
  | initialized env a hAdmin =>
      rw [instanceKeys_setInstance]
      exact Set.subset_insert _ _
  | anchored env w score version hash time hSigned hScore =>
      rw [instanceKeys_recordScore]
      exact (Set.subset_insert _ _).trans (Set.subset_insert _ _)

/-- At most the administrator and two keys for each wallet served. -/
theorem instanceKeys_le (is : List (Invocation A (Call A))) :
    (instanceKeys (machine.run is)).encard ≤
      (1 + 2 * (Machine.served servedWallet (machine.history is)).card : ℕ) := by
  refine Machine.footprint_le instanceKeys {.admin} walletKey servedWallet
    instanceKeys_empty ?_ is
  intro s i
  exact instanceKeys_step (step_transition s i)

/-- A call of administrator `a` that serves a wallet. -/
def serve (a w : A) : Invocation A (Call A) :=
  ⟨⟨{a}, 0⟩, .anchorScore w 0 [] [] 0⟩

/-- A run of administrator `a` that serves the wallets in turn. -/
def servingRun (a : A) (ws : List A) : List (Invocation A (Call A)) :=
  [⟨⟨{a}, 0⟩, .initializeAdmin a⟩] ++ ws.map (serve a)

/-- One accepted score for `w`, with its two keys. -/
theorem step_serve {s : Store A} {a w : A} (hAdmin : adminOf s = some a)
    (hCap : ¬50 < (getScoreHistory s w).length) :
    (machine.step s (serve a w)).2 = recordScore s w ⟨0, [], [], 0⟩ := by
  have hSigned : SignedBy (adminOf s) ⟨{a}, 0⟩ := by simp [hAdmin]
  have hScore : ¬(100 : UInt32) < 0 := by decide
  simp only [machine, guestMachine, exec, serve, anchorScore_run]
  rw [if_pos hSigned, if_neg hScore, if_neg hCap]

/-- Serving distinct wallets leaves as many keys. -/
theorem le_instanceKeys (a : A) {ws : List A} (hDistinct : ws.Nodup) :
    (ws.length : ℕ∞) ≤
      (instanceKeys (machine.run (servingRun a ws))).encard := by
  have hKey : Function.Injective (DataKey.currentScore : A → DataKey A) :=
    fun _ _ hEq => DataKey.currentScore.inj hEq
  refine Machine.le_footprint hKey (serve a) (fun s => adminOf s = some a)
    (fun s i => instanceKeys_grow (step_transition s i))
    (fun s w hAdmin => adminGuarded.keeps hAdmin _) ?_ ?_ hDistinct
  · intro is w hAdmin
    have hCap : ¬50 < (getScoreHistory (machine.run is) w).length := by
      rw [(mirrors_run w is).history, lastN_length]
      omega
    rw [step_serve hAdmin hCap, instanceKeys_recordScore]
    exact Set.mem_insert_of_mem _ (Set.mem_insert _ _)
  · rfl

/-- No constant bounds the footprint of all runs. -/
theorem instanceKeys_unbounded [Infinite A] (a : A) : ¬∃ B : ℕ, ∀ is,
    (instanceKeys ((machine (A := A)).run is)).encard ≤ B :=
  Machine.footprint_unbounded instanceKeys (servingRun a)
    fun _ => le_instanceKeys a

end TrustScore

namespace CredentialStore

variable {A S : Type}

/-- The wallet that an accepted call served. -/
def servedWallet : Invocation A (Call A S) × Answer → Option A
  | (⟨_, .addCredential w _ _ _ _⟩, .ok _) => some w
  | (⟨_, .addArchiveRecord w _ _ _ _⟩, .ok _) => some w
  | (⟨_, .removeCredentials w _⟩, .ok _) => some w
  | _ => none

/-- The two instance keys of a wallet. -/
def walletKey : Bool → A → DataKey A
  | true, w => .credentialCounter w
  | false, w => .archiveIndex w

variable [DecidableEq A]

theorem instanceKeys_acceptCredential (s : Store A S)
    (r : CredentialRecord A S) :
    instanceKeys (acceptCredential s r) =
      insert (.credentialCounter r.wallet) (instanceKeys s) := by
  simp [acceptCredential]

theorem instanceKeys_anchorArchive (s : Store A S) (w : A)
    (r : ArchiveRecord) :
    instanceKeys (anchorArchive s w r) =
      insert (.archiveIndex w) (instanceKeys s) := by
  simp [anchorArchive]

theorem instanceKeys_pruneCredentials (s : Store A S) (w : A)
    (sids : List HostString) :
    instanceKeys (pruneCredentials s w sids) = instanceKeys s := rfl

variable [DecidableEq S]

/-- A credential or an archive adds at most the two instance keys of its
wallet. -/
theorem instanceKeys_step {s s' : Store A S} {i : Invocation A (Call A S)}
    {answer : Answer} (hStep : Transition s i answer s') :
    instanceKeys s' ⊆ instanceKeys s ∪
      ownedKeys {.admin} walletKey (servedWallet (i, answer)).toFinset := by
  cases hStep with
  | refused i e => exact Set.subset_union_left
  | initialized env a hAdmin =>
      rw [instanceKeys_setInstance, Set.insert_subset_iff]
      exact ⟨.inr (.inl (Finset.mem_singleton_self _)), Set.subset_union_left⟩
  | accepted env w t sid d h hSigned hFresh =>
      rw [instanceKeys_acceptCredential, Set.insert_subset_iff]
      exact ⟨.inr (.inr ⟨true, w, Option.mem_toFinset.mpr rfl, rfl⟩),
        Set.subset_union_left⟩
  | anchored env w root count time cid hSigned =>
      rw [instanceKeys_anchorArchive, Set.insert_subset_iff]
      exact ⟨.inr (.inr ⟨false, w, Option.mem_toFinset.mpr rfl, rfl⟩),
        Set.subset_union_left⟩
  | pruned env w sids hSigned hGuard =>
      rw [instanceKeys_pruneCredentials]
      exact Set.subset_union_left

theorem instanceKeys_grow {s s' : Store A S} {i : Invocation A (Call A S)}
    {answer : Answer} (hStep : Transition s i answer s') :
    instanceKeys s ⊆ instanceKeys s' := by
  cases hStep with
  | refused i e => exact subset_rfl
  | initialized env a hAdmin =>
      rw [instanceKeys_setInstance]
      exact Set.subset_insert _ _
  | accepted env w t sid d h hSigned hFresh =>
      rw [instanceKeys_acceptCredential]
      exact Set.subset_insert _ _
  | anchored env w root count time cid hSigned =>
      rw [instanceKeys_anchorArchive]
      exact Set.subset_insert _ _
  | pruned env w sids hSigned hGuard =>
      rw [instanceKeys_pruneCredentials]

/-- At most the administrator and two keys for each wallet served. -/
theorem instanceKeys_le (is : List (Invocation A (Call A S))) :
    (instanceKeys (machine.run is)).encard ≤
      (1 + 2 * (Machine.served servedWallet (machine.history is)).card : ℕ) := by
  refine Machine.footprint_le instanceKeys {.admin} walletKey servedWallet
    instanceKeys_empty ?_ is
  intro s i
  exact instanceKeys_step (step_transition s i)

/-- A call of administrator `a` that serves a wallet. -/
def serve (a w : A) : Invocation A (Call A S) :=
  ⟨⟨{a}, 0⟩, .addArchiveRecord w (Vector.replicate 32 0) 0 0 []⟩

/-- A run of administrator `a` that serves the wallets in turn. -/
def servingRun (a : A) (ws : List A) : List (Invocation A (Call A S)) :=
  [⟨⟨{a}, 0⟩, .initializeAdmin a⟩] ++ ws.map (serve a)

/-- Serving distinct wallets leaves as many keys. -/
theorem le_instanceKeys (a : A) {ws : List A} (hDistinct : ws.Nodup) :
    (ws.length : ℕ∞) ≤
      (instanceKeys ((machine (S := S)).run (servingRun a ws))).encard := by
  have hKey : Function.Injective (DataKey.archiveIndex : A → DataKey A) :=
    fun _ _ hEq => DataKey.archiveIndex.inj hEq
  refine Machine.le_footprint hKey (serve a) (fun s => adminOf s = some a)
    (fun s i => instanceKeys_grow (step_transition s i))
    (fun s w hAdmin => adminGuarded.keeps hAdmin _) ?_ ?_ hDistinct
  · intro is w hAdmin
    have hSigned : SignedBy (adminOf ((machine (S := S)).run is)) ⟨{a}, 0⟩ := by
      simp [hAdmin]
    unfold serve
    rw [step_addArchiveRecord, if_pos hSigned, instanceKeys_anchorArchive]
    exact Set.mem_insert _ _
  · rfl

/-- No constant bounds the footprint of all runs. -/
theorem instanceKeys_unbounded [Infinite A] (a : A) : ¬∃ B : ℕ, ∀ is,
    (instanceKeys ((machine (A := A) (S := S)).run is)).encard ≤ B :=
  Machine.footprint_unbounded instanceKeys (servingRun a)
    fun _ => le_instanceKeys a

end CredentialStore

namespace SoulboundNft

variable {A M : Type}

/-- The wallet that an accepted call served. -/
def servedWallet : Invocation A (Call A M) × Answer → Option A
  | (⟨_, .mint w _ _ _⟩, .ok _) => some w
  | _ => none

/-- The flag of a wallet for each milestone. -/
def walletKey (m : M) (w : A) : DataKey A M := .hasBadge w m

/-- The instance keys of no wallet. -/
def sharedKeys [DecidableEq A] [DecidableEq M] : Finset (DataKey A M) :=
  {.admin, .badgeCounter}

variable [DecidableEq A] [DecidableEq M]

theorem instanceKeys_issueBadge (s : Store A M) (r : BadgeRecord A M) :
    instanceKeys (issueBadge s r) =
      insert (.hasBadge r.wallet r.milestoneType)
        (insert .badgeCounter (instanceKeys s)) := by
  simp [issueBadge]

/-- A mint adds at most a flag of its wallet, besides the keys of no wallet. -/
theorem instanceKeys_step {s s' : Store A M} {i : Invocation A (Call A M)}
    {answer : Answer} (hStep : Transition s i answer s') :
    instanceKeys s' ⊆ instanceKeys s ∪
      ownedKeys sharedKeys walletKey (servedWallet (i, answer)).toFinset := by
  cases hStep with
  | refused i e => exact Set.subset_union_left
  | initialized env a hAdmin =>
      rw [instanceKeys_setInstance, Set.insert_subset_iff]
      exact ⟨.inr (.inl (by simp [sharedKeys])), Set.subset_union_left⟩
  | minted env w m cid time hSigned hFresh =>
      rw [instanceKeys_issueBadge, Set.insert_subset_iff,
        Set.insert_subset_iff]
      exact ⟨.inr (.inr ⟨m, w, Option.mem_toFinset.mpr rfl, rfl⟩),
        .inr (.inl (by simp [sharedKeys])), Set.subset_union_left⟩

theorem instanceKeys_grow {s s' : Store A M} {i : Invocation A (Call A M)}
    {answer : Answer} (hStep : Transition s i answer s') :
    instanceKeys s ⊆ instanceKeys s' := by
  cases hStep with
  | refused i e => exact subset_rfl
  | initialized env a hAdmin =>
      rw [instanceKeys_setInstance]
      exact Set.subset_insert _ _
  | minted env w m cid time hSigned hFresh =>
      rw [instanceKeys_issueBadge]
      exact (Set.subset_insert _ _).trans (Set.subset_insert _ _)

/-- At most the administrator, the counter, and one key for each milestone of
each wallet served. -/
theorem instanceKeys_le [Fintype M] (is : List (Invocation A (Call A M))) :
    (instanceKeys (machine.run is)).encard ≤ (2 + Fintype.card M *
      (Machine.served servedWallet (machine.history is)).card : ℕ) := by
  have hShared : (sharedKeys : Finset (DataKey A M)).card = 2 :=
    Finset.card_pair (by simp)
  rw [← hShared]
  refine Machine.footprint_le instanceKeys sharedKeys walletKey servedWallet
    instanceKeys_empty ?_ is
  intro s i
  exact instanceKeys_step (step_transition s i)

/-- A call of administrator `a` that serves a wallet. -/
def serve (a : A) (m : M) (w : A) : Invocation A (Call A M) :=
  ⟨⟨{a}, 0⟩, .mint w m [] 0⟩

/-- A run of administrator `a` that serves the wallets in turn. -/
def servingRun (a : A) (m : M) (ws : List A) :
    List (Invocation A (Call A M)) :=
  [⟨⟨{a}, 0⟩, .initializeAdmin a⟩] ++ ws.map (serve a m)

/-- Serving distinct wallets leaves as many keys. -/
theorem le_instanceKeys (a : A) (m : M) {ws : List A} (hDistinct : ws.Nodup) :
    (ws.length : ℕ∞) ≤
      (instanceKeys (machine.run (servingRun a m ws))).encard := by
  have hKey : Function.Injective (walletKey m : A → DataKey A M) :=
    fun _ _ hEq => (DataKey.hasBadge.inj hEq).1
  refine Machine.le_footprint hKey (serve a m) (fun s => adminOf s = some a)
    (fun s i => instanceKeys_grow (step_transition s i))
    (fun s w hAdmin => adminGuarded.keeps hAdmin _) ?_ ?_ hDistinct
  · intro is w hAdmin
    have hSigned : SignedBy (adminOf (machine.run is)) ⟨{a}, 0⟩ := by
      simp [hAdmin]
    unfold serve
    rw [step_mint, if_pos hSigned]
    by_cases hFlag : hasBadge (machine.run is) w m
    · -- A flag that is set is stored.
      rw [if_pos hFlag]
      unfold hasBadge at hFlag
      cases hGet : (machine.run is).instanceTier.get (.hasBadge w m) with
      | none => simp [hGet] at hFlag
      | some b => exact Option.isSome_iff_exists.mpr ⟨b, hGet⟩
    · rw [if_neg hFlag, instanceKeys_issueBadge]
      exact Set.mem_insert _ _
  · rfl

/-- No constant bounds the footprint of all runs. -/
theorem instanceKeys_unbounded [Infinite A] (a : A) (m : M) : ¬∃ B : ℕ, ∀ is,
    (instanceKeys ((machine (A := A) (M := M)).run is)).encard ≤ B :=
  Machine.footprint_unbounded instanceKeys (servingRun a m)
    fun _ => le_instanceKeys a m

end SoulboundNft

instance : Fintype MilestoneType :=
  Fintype.ofList
    [.firstPr, .firstContract, .hackathonParticipant, .risingContributor,
      .multiRepoContributor, .firstSorobanInvocation, .fullStackBuilder,
      .firstBounty, .firstGrant, .firstTrustlessWork]
    (by intro m; cases m <;> simp)

/-- **Instance size.**  However long the run, the instance tier holds the
fixed keys of the contract and, for each wallet it served, two keys, or for
badges one key for each milestone. -/
theorem instance_size_linear {A S : Type} [DecidableEq A] [DecidableEq S] :
    (∀ is, (instanceKeys ((TrustScore.machine (A := A)).run is)).encard ≤
      (1 + 2 * (Machine.served TrustScore.servedWallet
        (TrustScore.machine.history is)).card : ℕ)) ∧
    (∀ is, (instanceKeys
        ((CredentialStore.machine (A := A) (S := S)).run is)).encard ≤
      (1 + 2 * (Machine.served CredentialStore.servedWallet
        (CredentialStore.machine.history is)).card : ℕ)) ∧
    (∀ is, (instanceKeys
        ((SoulboundNft.machine (A := A) (M := MilestoneType)).run is)).encard ≤
      (2 + 10 * (Machine.served SoulboundNft.servedWallet
        (SoulboundNft.machine.history is)).card : ℕ)) :=
  ⟨TrustScore.instanceKeys_le, CredentialStore.instanceKeys_le,
    SoulboundNft.instanceKeys_le⟩

/-- No constant bounds the instance tier of any of the three contracts: serve
one wallet more than it allows for. -/
theorem instance_size_unbounded :
    (¬∃ B : ℕ, ∀ is : List (Invocation Nat (TrustScore.Call Nat)),
      (instanceKeys (TrustScore.machine.run is)).encard ≤ B) ∧
    (¬∃ B : ℕ, ∀ is : List (Invocation Nat
        (SoulboundNft.Call Nat MilestoneType)),
      (instanceKeys (SoulboundNft.machine.run is)).encard ≤ B) ∧
    (¬∃ B : ℕ, ∀ is : List (Invocation Nat
        (CredentialStore.Call Nat SignalType)),
      (instanceKeys (CredentialStore.machine.run is)).encard ≤ B) :=
  ⟨TrustScore.instanceKeys_unbounded 0,
    SoulboundNft.instanceKeys_unbounded 0 .firstPr,
    CredentialStore.instanceKeys_unbounded 0⟩

end ForgePass.Contracts
