import ForgePass.Contracts.CredentialStoreSpec
import ForgePass.Contracts.SoulboundNftSpec
import ForgePass.Verified.Relabel
import ForgePass.Verified.Simulation

/-!
# Appending enum variants

The upgrade path of `SignalType` and `MilestoneType` is to append variants.
Seen from the old variants this is an injective map into a larger type, and
the contracts follow it: they compare variants and store them, in records and
in one storage key, and do nothing else with them.  `StoredAs` relates a store
to the one with every variant in it mapped, and each call with its variant
mapped keeps the relation and gives the same answer.
-/

namespace ForgePass.Contracts

open ForgePass.Verified
open ForgePass.Verified.Machine

namespace CredentialStore

variable {A S S' : Type}

/-- A stored credential whose signal type is embedded by `f`. -/
def mapRecord (f : S → S') (r : CredentialRecord A S) :
    CredentialRecord A S' :=
  ⟨r.id, r.wallet, f r.signalType, r.sourceId, r.eventDate, r.dataHash⟩

/-- A call whose signal type is embedded by `f`. -/
def mapCall (f : S → S') : Call A S → Call A S'
  | .initializeAdmin admin => .initializeAdmin admin
  | .addCredential wallet signalType sourceId eventDate dataHash =>
      .addCredential wallet (f signalType) sourceId eventDate dataHash
  | .addArchiveRecord wallet merkleRoot credentialCount archivedAt ipfsCid =>
      .addArchiveRecord wallet merkleRoot credentialCount archivedAt ipfsCid
  | .removeCredentials wallet sourceIds => .removeCredentials wallet sourceIds

/-- The same invocation with its signal type embedded. -/
def mapInvocation (f : S → S') (i : Invocation A (Call A S)) :
    Invocation A (Call A S') := ⟨i.env, mapCall f i.call⟩

/-- A stored value with its signal types embedded; only live sets hold any. -/
def mapValue (f : S → S') :
    (k : DataKey A) → DataKey.Value A S k → DataKey.Value A S' k
  | .admin, admin => admin
  | .credentials _, credentials => credentials.map (mapRecord f)
  | .credentialCounter _, id => id
  | .archiveRecord _ _, record => record
  | .archiveIndex _, index => index

/-- The signal types in the stored records are mapped. -/
abbrev StoredAs (f : S → S') (s : Store A S) (s' : Store A S') : Prop :=
  s.Relabels (fun k => k) (mapValue f) s'

namespace StoredAs

variable {f : S → S'} {s : Store A S} {s' : Store A S'}

theorem adminOf (h : StoredAs f s s') :
    CredentialStore.adminOf s' = CredentialStore.adminOf s := by
  have hImage := h.instanceTier.image .admin
  unfold CredentialStore.adminOf
  rw [hImage]
  cases s.instanceTier.get .admin with
  | none => rfl
  | some a => rfl

theorem credentials (h : StoredAs f s s') (w : A) :
    getCredentials s' w = (getCredentials s w).map (mapRecord f) :=
  h.persistentTier.getD (.credentials w) []

theorem counter (h : StoredAs f s s') (w : A) :
    credentialCounter s' w = credentialCounter s w :=
  h.instanceTier.getD (.credentialCounter w) 0

theorem index (h : StoredAs f s s') (w : A) :
    archiveIndex s' w = archiveIndex s w :=
  h.instanceTier.getD (.archiveIndex w) 0

theorem slots (h : StoredAs f s s') (w : A) : archiveAt s' w = archiveAt s w := by
  funext i
  have hImage := h.persistentTier.image (.archiveRecord w (.ofNat i))
  unfold archiveAt
  rw [hImage]
  cases s.persistentTier.get (.archiveRecord w (.ofNat i)) with
  | none => rfl
  | some r => rfl

theorem exist [DecidableEq S] [DecidableEq S'] (h : StoredAs f s s')
    (hf : Function.Injective f) (w : A) (t : S) (sid : HostString) :
    credentialExists s' w (f t) sid = credentialExists s w t sid := by
  rw [credentialExists_eq, credentialExists_eq, h.credentials]
  apply decide_eq_decide.mpr
  constructor
  · rintro ⟨r', hMem, hType, hSource⟩
    obtain ⟨r, hr, rfl⟩ := List.mem_map.mp hMem
    exact ⟨r, hr, hf hType, hSource⟩
  · rintro ⟨r, hr, rfl, hSource⟩
    exact ⟨mapRecord f r, List.mem_map_of_mem hr, rfl, hSource⟩

variable [DecidableEq A]

theorem setAdmin (h : StoredAs f s s') (a : A) :
    StoredAs f (s.setInstance .admin a) (s'.setInstance .admin a) :=
  h.setInstance Function.injective_id .admin a

theorem accept (h : StoredAs f s s') (r : CredentialRecord A S) :
    StoredAs f (acceptCredential s r) (acceptCredential s' (mapRecord f r)) := by
  have hWritten := (h.setPersistent Function.injective_id
    (.credentials r.wallet) (getCredentials s r.wallet ++ [r])).setInstance
      Function.injective_id (.credentialCounter r.wallet) r.id
  have hLive : mapValue f (.credentials r.wallet)
      (getCredentials s r.wallet ++ [r]) =
        getCredentials s' r.wallet ++ [mapRecord f r] := by
    rw [h.credentials]
    exact List.map_append
  rw [hLive] at hWritten
  exact hWritten

theorem anchor (h : StoredAs f s s') (w : A) (r : ArchiveRecord) :
    StoredAs f (anchorArchive s w r) (anchorArchive s' w r) := by
  have hWritten := (h.setPersistent Function.injective_id
    (.archiveRecord w (archiveIndex s w)) r).setInstance
      Function.injective_id (.archiveIndex w) (archiveIndex s w + 1)
  unfold anchorArchive
  rw [h.index]
  exact hWritten

/-- Removal looks at source ids only. -/
theorem prune (h : StoredAs f s s') (w : A) (sids : List HostString) :
    StoredAs f (pruneCredentials s w sids) (pruneCredentials s' w sids) := by
  have hWritten := h.setPersistent Function.injective_id (.credentials w)
    (dropBy CredentialRecord.sourceId sids (getCredentials s w))
  have hLive : mapValue f (.credentials w)
      (dropBy CredentialRecord.sourceId sids (getCredentials s w)) =
        dropBy CredentialRecord.sourceId sids (getCredentials s' w) := by
    rw [h.credentials]
    exact map_dropBy (mapRecord f) CredentialRecord.sourceId
      CredentialRecord.sourceId (fun _ => rfl) sids _
  rw [hLive] at hWritten
  exact hWritten

end StoredAs

variable [DecidableEq A] [DecidableEq S] [DecidableEq S'] {f : S → S'}

/-- One call with its signal type mapped. -/
theorem storedAs_step (hf : Function.Injective f) {s : Store A S}
    {s' : Store A S'} (h : StoredAs f s s') (i : Invocation A (Call A S)) :
    Related Eq (StoredAs f) (machine.step s i)
      (machine.step s' (mapInvocation f i)) := by
  obtain ⟨env, call⟩ := i
  cases call with
  | initializeAdmin a =>
      simp only [mapInvocation, mapCall, step_initializeAdmin, h.adminOf]
      apply Related.ite
      · intro hAdmin
        exact ⟨rfl, h⟩
      · intro hAdmin
        exact ⟨rfl, h.setAdmin a⟩
  | addCredential w t sid d hash =>
      simp only [mapInvocation, mapCall, step_addCredential, h.adminOf,
        h.exist hf, h.counter]
      refine .ite (fun hSigned => ?_) fun hSigned => ⟨rfl, h⟩
      apply Related.ite
      · intro hExists
        exact ⟨rfl, h⟩
      · intro hExists
        exact ⟨rfl, h.accept _⟩
  | addArchiveRecord w root count time cid =>
      simp only [mapInvocation, mapCall, step_addArchiveRecord, h.adminOf]
      refine .ite (fun hSigned => ?_) fun hSigned => ⟨rfl, h⟩
      exact ⟨rfl, h.anchor w _⟩
  | removeCredentials w sids =>
      simp only [mapInvocation, mapCall, step_removeCredentials, h.adminOf,
        h.index]
      refine .ite (fun hSigned => ?_) fun hSigned => ⟨rfl, h⟩
      apply Related.ite
      · intro hGuard
        exact ⟨rfl, h⟩
      · intro hGuard
        exact ⟨rfl, h.prune w sids⟩

theorem simulation (hf : Function.Injective f) :
    Simulation (machine : Machine (Store A S) _ _)
      (machine : Machine (Store A S') _ _) (some ∘ mapInvocation f)
      (fun _ => True) (StoredAs f) Eq :=
  .ofMap Ledger.Relabels.empty fun _ _ i h => storedAs_step hf h i

/-- Every reader returns the same up to the mapped signal types. -/
structure ReadsAs (f : S → S') (s : Store A S) (s' : Store A S') : Prop where
  credentials : ∀ w,
    getCredentials s' w = (getCredentials s w).map (mapRecord f)
  count : ∀ w, getCredentialCount s' w = getCredentialCount s w
  exist : ∀ w t sid,
    credentialExists s' w (f t) sid = credentialExists s w t sid
  archives : ∀ w, getArchiveRecords s' w = getArchiveRecords s w

omit [DecidableEq A] in
theorem StoredAs.reads (hf : Function.Injective f) {s : Store A S}
    {s' : Store A S'} (h : StoredAs f s s') : ReadsAs f s s' := by
  refine ⟨h.credentials, ?_, h.exist hf, ?_⟩
  · intro w
    rw [getCredentialCount_eq, getCredentialCount_eq, h.credentials,
      List.length_map]
  · intro w
    rw [getArchiveRecords_eq, getArchiveRecords_eq, h.index, h.slots]

/-- For each position of the live set, whether a removal keeps it. -/
def keptPositions (s : Store A S) (env : Env A) (w : A)
    (sids : List HostString) : List Bool :=
  (getCredentials s w).map fun r => decide
    (r ∈ getCredentials (machine.step s ⟨env, .removeCredentials w sids⟩).2 w)

theorem StoredAs.keptPositions (hf : Function.Injective f) {s : Store A S}
    {s' : Store A S'} (h : StoredAs f s s') (env : Env A) (w : A)
    (sids : List HostString) :
    CredentialStore.keptPositions s' env w sids =
      CredentialStore.keptPositions s env w sids := by
  have hRecord : Function.Injective (mapRecord f : CredentialRecord A S → _) := by
    intro r r' hEq
    cases r
    cases r'
    simp only [mapRecord, CredentialRecord.mk.injEq] at hEq ⊢
    exact ⟨hEq.1, hEq.2.1, hf hEq.2.2.1, hEq.2.2.2⟩
  have hAfter := (storedAs_step hf h ⟨env, .removeCredentials w sids⟩).state
  have hLive := hAfter.credentials w
  simp only [mapInvocation, mapCall] at hLive
  unfold CredentialStore.keptPositions
  rw [hLive, h.credentials, List.map_map]
  apply List.map_congr_left
  intro r hr
  rw [Function.comp_apply, decide_eq_decide, List.mem_map_of_injective hRecord]

/-- The run with its signal types mapped: the same answers, the same storage
up to the map, and readers that agree. -/
structure Extends (f : S → S') (is : List (Invocation A (Call A S))) : Prop where
  answers : machine.history (is.map (mapInvocation f)) =
    (machine.history is).map fun e => (mapInvocation f e.1, e.2)
  stored : StoredAs f (machine.run is) (machine.run (is.map (mapInvocation f)))
  reads : ReadsAs f (machine.run is) (machine.run (is.map (mapInvocation f)))
  kept : ∀ env w sids,
    keptPositions (machine.run (is.map (mapInvocation f))) env w sids =
      keptPositions (machine.run is) env w sids

/-- **Appended signal types.** The credential store compares signal types and
looks at nothing else about them, so an injective map of them maps whole runs.
-/
theorem signalTypes_extend (hf : Function.Injective f)
    (is : List (Invocation A (Call A S))) : Extends f is := by
  have hRun := (simulation hf).run_map is
  exact ⟨(simulation hf).history_map is, hRun, hRun.reads hf,
    hRun.keptPositions hf⟩

end CredentialStore

namespace SoulboundNft

variable {A M M' : Type}

/-- A stored badge whose milestone is embedded by `f`. -/
def mapBadge (f : M → M') (r : BadgeRecord A M) : BadgeRecord A M' :=
  ⟨r.badgeId, r.wallet, f r.milestoneType, r.ipfsCid, r.mintedAt⟩

/-- A call whose milestone is embedded by `f`. -/
def mapCall (f : M → M') : Call A M → Call A M'
  | .initializeAdmin admin => .initializeAdmin admin
  | .mint wallet milestoneType ipfsCid mintedAt =>
      .mint wallet (f milestoneType) ipfsCid mintedAt

/-- The same invocation with its milestone embedded. -/
def mapInvocation (f : M → M') (i : Invocation A (Call A M)) :
    Invocation A (Call A M') := ⟨i.env, mapCall f i.call⟩

/-- The flag's key embeds the milestone. -/
def mapKey (f : M → M') : DataKey A M → DataKey A M'
  | .admin => .admin
  | .badge badgeId => .badge badgeId
  | .walletBadges wallet => .walletBadges wallet
  | .badgeCounter => .badgeCounter
  | .hasBadge wallet milestoneType => .hasBadge wallet (f milestoneType)

/-- A stored value with its milestones embedded; only badges hold any. -/
def mapValue (f : M → M') :
    (k : DataKey A M) → DataKey.Value A M k → DataKey.Value A M' (mapKey f k)
  | .admin, admin => admin
  | .badge _, record => mapBadge f record
  | .walletBadges _, badgeIds => badgeIds
  | .badgeCounter, counter => counter
  | .hasBadge _ _, minted => minted

theorem mapKey_injective {f : M → M'} (hf : Function.Injective f) :
    Function.Injective (mapKey f : DataKey A M → DataKey A M') := by
  intro k k' hEq
  cases k with
  | admin =>
      cases k' with
      | admin => rfl
      | _ => cases hEq
  | badge id =>
      cases k' with
      | badge id' => rw [DataKey.badge.inj hEq]
      | _ => cases hEq
  | walletBadges w =>
      cases k' with
      | walletBadges w' => rw [DataKey.walletBadges.inj hEq]
      | _ => cases hEq
  | badgeCounter =>
      cases k' with
      | badgeCounter => rfl
      | _ => cases hEq
  | hasBadge w m =>
      cases k' with
      | hasBadge w' m' =>
          obtain ⟨rfl, hm⟩ := DataKey.hasBadge.inj hEq
          rw [hf hm]
      | _ => cases hEq

/-- The milestones in the stored badges and flags are mapped. -/
abbrev StoredAs (f : M → M') (s : Store A M) (s' : Store A M') : Prop :=
  s.Relabels (mapKey f) (mapValue f) s'

namespace StoredAs

variable {f : M → M'} {s : Store A M} {s' : Store A M'}

theorem adminOf (h : StoredAs f s s') :
    SoulboundNft.adminOf s' = SoulboundNft.adminOf s := by
  have hImage := h.instanceTier.image .admin
  simp only [mapKey] at hImage
  unfold SoulboundNft.adminOf
  rw [hImage]
  cases s.instanceTier.get .admin with
  | none => rfl
  | some a => rfl

theorem counter (h : StoredAs f s s') : badgeCounter s' = badgeCounter s :=
  h.instanceTier.getD .badgeCounter 0

theorem flag (h : StoredAs f s s') (w : A) (m : M) :
    hasBadge s' w (f m) = hasBadge s w m :=
  h.instanceTier.getD (.hasBadge w m) false

theorem indexed (h : StoredAs f s s') (w : A) :
    walletBadges s' w = walletBadges s w :=
  h.persistentTier.getD (.walletBadges w) []

theorem badge (h : StoredAs f s s') (id : UInt64) :
    getBadge s' id = (getBadge s id).map (mapBadge f) :=
  h.persistentTier.image (.badge id)

theorem badges (h : StoredAs f s s') (w : A) :
    getBadgesForWallet s' w = (getBadgesForWallet s w).map (mapBadge f) := by
  rw [getBadgesForWallet_eq, getBadgesForWallet_eq, h.indexed,
    List.map_filterMap]
  exact List.filterMap_congr fun id _ => h.badge id

variable [DecidableEq A] [DecidableEq M] [DecidableEq M']

theorem setAdmin (h : StoredAs f s s') (hf : Function.Injective f) (a : A) :
    StoredAs f (s.setInstance .admin a) (s'.setInstance .admin a) :=
  h.setInstance (mapKey_injective hf) .admin a

theorem issue (h : StoredAs f s s') (hf : Function.Injective f)
    (r : BadgeRecord A M) :
    StoredAs f (issueBadge s r) (issueBadge s' (mapBadge f r)) := by
  have hKey := mapKey_injective (A := A) hf
  have hWritten := (((h.setInstance hKey .badgeCounter
    r.badgeId).setPersistent hKey (.badge r.badgeId) r).setPersistent hKey
      (.walletBadges r.wallet) (walletBadges s r.wallet ++
        [r.badgeId])).setInstance hKey (.hasBadge r.wallet r.milestoneType) true
  unfold issueBadge
  rw [h.indexed]
  exact hWritten

end StoredAs

variable [DecidableEq A] [DecidableEq M] [DecidableEq M'] {f : M → M'}

/-- One call with its milestone mapped. -/
theorem storedAs_step (hf : Function.Injective f) {s : Store A M}
    {s' : Store A M'} (h : StoredAs f s s') (i : Invocation A (Call A M)) :
    Related Eq (StoredAs f) (machine.step s i)
      (machine.step s' (mapInvocation f i)) := by
  obtain ⟨env, call⟩ := i
  cases call with
  | initializeAdmin a =>
      simp only [mapInvocation, mapCall, step_initializeAdmin, h.adminOf]
      apply Related.ite
      · intro hAdmin
        exact ⟨rfl, h⟩
      · intro hAdmin
        exact ⟨rfl, h.setAdmin hf a⟩
  | mint w m cid time =>
      simp only [mapInvocation, mapCall, step_mint, h.adminOf, h.flag,
        h.counter]
      refine .ite (fun hSigned => ?_) fun hSigned => ⟨rfl, h⟩
      apply Related.ite
      · intro hFlag
        exact ⟨rfl, h⟩
      · intro hFlag
        exact ⟨rfl, h.issue hf _⟩

theorem simulation_map (hf : Function.Injective f) :
    Simulation (machine : Machine (Store A M) _ _)
      (machine : Machine (Store A M') _ _) (some ∘ mapInvocation f)
      (fun _ => True) (StoredAs f) Eq :=
  .ofMap Ledger.Relabels.empty fun _ _ i h => storedAs_step hf h i

/-- Every reader returns the same up to the mapped milestones. -/
structure ReadsAs (f : M → M') (s : Store A M) (s' : Store A M') : Prop where
  flag : ∀ w m, hasBadge s' w (f m) = hasBadge s w m
  badge : ∀ id, getBadge s' id = (getBadge s id).map (mapBadge f)
  badges : ∀ w,
    getBadgesForWallet s' w = (getBadgesForWallet s w).map (mapBadge f)

/-- The run with its milestones mapped: the same answers, the same storage up
to the map, and readers that agree. -/
structure Extends (f : M → M') (is : List (Invocation A (Call A M))) : Prop where
  answers : machine.history (is.map (mapInvocation f)) =
    (machine.history is).map fun e => (mapInvocation f e.1, e.2)
  stored : StoredAs f (machine.run is) (machine.run (is.map (mapInvocation f)))
  reads : ReadsAs f (machine.run is) (machine.run (is.map (mapInvocation f)))

/-- **Appended milestones.** A milestone is part of a storage key here, so
storage under the mapped keys is compared as well. -/
theorem milestones_extend (hf : Function.Injective f)
    (is : List (Invocation A (Call A M))) : Extends f is := by
  have hRun := (simulation_map hf).run_map is
  exact ⟨(simulation_map hf).history_map is, hRun,
    ⟨hRun.flag, hRun.badge, hRun.badges⟩⟩

end SoulboundNft

/-- **Appending variants** preserves the behaviour of both contracts on the old
ones: embed them into any larger enumeration, and every run gets the same
answers and every reader returns the embedded records. -/
theorem variants_extend {A S S' M M' : Type} [DecidableEq A] [DecidableEq S]
    [DecidableEq S'] [DecidableEq M] [DecidableEq M'] {f : S → S'}
    (hf : Function.Injective f) {g : M → M'} (hg : Function.Injective g) :
    (∀ is : List (Invocation A (CredentialStore.Call A S)),
      CredentialStore.Extends f is) ∧
    (∀ is : List (Invocation A (SoulboundNft.Call A M)),
      SoulboundNft.Extends g is) :=
  ⟨CredentialStore.signalTypes_extend hf, SoulboundNft.milestones_extend hg⟩

/-- One variant appended to each enumeration. -/
theorem variants_extend_some :
    (∀ is : List (Invocation Nat (CredentialStore.Call Nat SignalType)),
      CredentialStore.Extends some is) ∧
    (∀ is : List (Invocation Nat (SoulboundNft.Call Nat MilestoneType)),
      SoulboundNft.Extends some is) :=
  variants_extend (Option.some_injective _) (Option.some_injective _)

end ForgePass.Contracts
