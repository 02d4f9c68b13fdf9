import ForgePass.Contracts.CredentialStore
import ForgePass.Verified.KeyedList
import ForgePass.Verified.Loop

/-!
# What one credential-store call does

Each entry point has one closed form here, with its loops evaluated and its
guards in order.  `Transition` collects the four ways a call can succeed and
the single way it can fail; later modules argue by cases on it and read the
new state through the view lemmas of the last section.
-/

namespace ForgePass.Contracts.CredentialStore

open ForgePass.Verified
open ForgePass.Verified.Guest

variable {A S : Type}

/-! ## Views -/

/-- The stored administrator. -/
def adminOf (s : Store A S) : Option A := s.instanceTier.get .admin

/-- The last credential id issued to a wallet, 0 before the first. -/
def credentialCounter (s : Store A S) (w : A) : UInt64 :=
  (s.instanceTier.get (.credentialCounter w)).getD 0

/-- The next archive slot of a wallet. -/
def archiveIndex (s : Store A S) (w : A) : UInt32 :=
  (s.instanceTier.get (.archiveIndex w)).getD 0

/-- The archive slot at a position, as the reader finds it: positions are
counted in `Nat` and slots in `u32`. -/
def archiveAt (s : Store A S) (w : A) (i : Nat) : Option ArchiveRecord :=
  s.persistentTier.get (.archiveRecord w (.ofNat i))

/-- The deduplication key of a credential. -/
def dedupKey (r : CredentialRecord A S) : S × HostString :=
  (r.signalType, r.sourceId)

/-! ## Readers in closed form -/

theorem getCredentialCount_eq (s : Store A S) (w : A) :
    getCredentialCount s w = (getCredentials s w).length := rfl

/-- The loop of the reader, in closed form: the filled slots below the index,
in order. -/
theorem getArchiveRecords_eq (s : Store A S) (w : A) :
    getArchiveRecords s w =
      (List.range (archiveIndex s w).toNat).filterMap (archiveAt s w) := by
  unfold getArchiveRecords
  simp only [bind_pure]
  rw [forIn_collect (f := archiveAt s w)]
  · rfl
  · intro i out
    unfold archiveAt
    cases s.persistentTier.get (.archiveRecord w (.ofNat i)) with
    | none => simp
    | some r => rfl

/-- The nested rebuild loop drops exactly the listed source ids. The inner loop
computes a flag, the outer one filters by it. -/
theorem rebuildWithout_eq (sids : List HostString)
    (l : List (CredentialRecord A S)) :
    rebuildWithout sids l = dropBy CredentialRecord.sourceId sids l := by
  have hInner (cred : CredentialRecord A S) :=
    forIn_flag sids fun sid => cred.sourceId = sid
  have hOuter := forIn_rebuild l
    (fun cred => !decide (∃ sid ∈ sids, cred.sourceId = sid)) []
  unfold rebuildWithout
  simp only [hInner, pure_bind]
  rw [hOuter]
  simp [dropBy]

section Scan

variable [DecidableEq S]

/-- The loop of the lookup stops at the first record with the key; its result
says whether there is one. -/
theorem credentialExists_eq (s : Store A S) (w : A) (t : S)
    (sid : HostString) :
    credentialExists s w t sid =
      decide (∃ r ∈ getCredentials s w, r.signalType = t ∧ r.sourceId = sid) := by
  have hLoop := forIn_search (getCredentials s w)
    (fun r => r.signalType = t ∧ r.sourceId = sid) true
  unfold credentialExists
  simp only [getCredentials] at hLoop ⊢
  rw [hLoop]
  by_cases h : ∃ r ∈ (s.persistentTier.get (.credentials w)).getD [],
      r.signalType = t ∧ r.sourceId = sid
  · simp only [h]
    rfl
  · simp only [h]
    rfl

theorem credentialExists_iff (s : Store A S) (w : A) (t : S)
    (sid : HostString) :
    credentialExists s w t sid = true ↔
      ∃ r ∈ getCredentials s w, r.signalType = t ∧ r.sourceId = sid := by
  rw [credentialExists_eq, decide_eq_true_eq]

/-- The scan of `credential_exists` decides membership among the keys. -/
theorem credentialExists_iff_mem (s : Store A S) (w : A) (t : S)
    (sid : HostString) :
    credentialExists s w t sid = true ↔
      (t, sid) ∈ (getCredentials s w).map dedupKey := by
  rw [credentialExists_iff, List.mem_map]
  simp only [dedupKey, Prod.mk.injEq]

end Scan

/-! ## Effects -/

variable [DecidableEq A]

/-- Append a credential to its wallet's live set and store its id as the
counter. -/
def acceptCredential (s : Store A S) (r : CredentialRecord A S) : Store A S :=
  (s.setPersistent (.credentials r.wallet)
    (getCredentials s r.wallet ++ [r])).setInstance
      (.credentialCounter r.wallet) r.id

/-- Write an archive record into the wallet's next slot. -/
def anchorArchive (s : Store A S) (w : A) (r : ArchiveRecord) : Store A S :=
  (s.setPersistent (.archiveRecord w (archiveIndex s w)) r).setInstance
    (.archiveIndex w) (archiveIndex s w + 1)

/-- Drop the live credentials whose source id is listed. -/
def pruneCredentials (s : Store A S) (w : A) (sids : List HostString) :
    Store A S :=
  s.setPersistent (.credentials w)
    (dropBy CredentialRecord.sourceId sids (getCredentials s w))

/-! ## Entry points in closed form -/

/-- What follows the check of the administrator runs exactly if the stored
administrator signed; otherwise the call fails before any write. -/
theorem requireAdmin_bind {α : Type} (f : Unit → Exec A S α) (env : Env A)
    (s : Store A S) :
    (requireAdmin >>= f) env s =
      if SignedBy (adminOf s) env then f () env s
      else (.error (refusal .notInitialized (adminOf s)), s) := by
  have h := requireAdminAt_bind (E := ContractError) (DataKey.admin : DataKey A)
    (id : DataKey.Value A S .admin → A) .notInitialized f env s
  rw [Option.map_id, id_eq] at h
  exact h

/-- `initialize` asks for no signature: it stores the administrator unless
there is one. -/
theorem initializeAdmin_run (a : A) (env : Env A) (s : Store A S) :
    initializeAdmin a env s =
      if (adminOf s).isSome then (.error (.error .alreadyInitialized), s)
      else (.ok (), s.setInstance .admin a) :=
  initializeAt_run (V := DataKey.Value A S) .admin id
    ContractError.alreadyInitialized a env s

/-- The body of `add_credential`: the signature is checked before the key, and
the id returned is the counter plus one in the arithmetic of `u64`. -/
theorem addCredential_run [DecidableEq S] (w : A) (t : S) (sid : HostString)
    (d : UInt64) (h : HostString) (env : Env A) (s : Store A S) :
    addCredential w t sid d h env s =
      if SignedBy (adminOf s) env then
        if credentialExists s w t sid then
          (.error (.error .credentialAlreadyExists), s)
        else
          (.ok (credentialCounter s w + 1),
            acceptCredential s ⟨credentialCounter s w + 1, w, t, sid, d, h⟩)
      else (.error (refusal .notInitialized (adminOf s)), s) := by
  unfold addCredential
  rw [requireAdmin_bind]
  split
  · rw [persistentGet_bind, forIn_fail_bind]
    simp only [credentialExists_iff, getCredentials]
    split
    · rfl
    · rfl
  · rfl

/-- The body of `add_archive_record`: nothing but the signature is checked. -/
theorem addArchiveRecord_run (w : A) (root : BytesN 32) (count : UInt32)
    (time : UInt64) (cid : HostString) (env : Env A) (s : Store A S) :
    addArchiveRecord w root count time cid env s =
      if SignedBy (adminOf s) env then
        (.ok (), anchorArchive s w ⟨root, count, time, cid⟩)
      else (.error (refusal .notInitialized (adminOf s)), s) := by
  unfold addArchiveRecord
  rw [requireAdmin_bind]
  rfl

/-- The body of `remove_credentials`: the guard reads the archive index and
nothing else, and a removal that passes it always succeeds. -/
theorem removeCredentials_run (w : A) (sids : List HostString) (env : Env A)
    (s : Store A S) :
    removeCredentials w sids env s =
      if SignedBy (adminOf s) env then
        if archiveIndex s w = 0 then (.error (.error .archiveRecordRequired), s)
        else (.ok (), pruneCredentials s w sids)
      else (.error (refusal .notInitialized (adminOf s)), s) := by
  unfold removeCredentials
  rw [requireAdmin_bind]
  by_cases hSigned : SignedBy (adminOf s) env
  · rw [if_pos hSigned, if_pos hSigned, instanceGet_bind]
    by_cases hGuard : archiveIndex s w = 0
    · rw [if_pos hGuard]
      have hNone : (s.instanceTier.get (.archiveIndex w)).getD 0 = 0 := hGuard
      simp only [hNone, if_true]
      rfl
    · rw [if_neg hGuard]
      have hSome : ¬(s.instanceTier.get (.archiveIndex w)).getD 0 = 0 := hGuard
      simp only [hSome, if_false, rebuildWithout_eq]
      rfl
  · rw [if_neg hSigned, if_neg hSigned]

/-! ## Calls in closed form -/

/-- One invocation of `initialize`, as a case distinction. -/
theorem step_initializeAdmin [DecidableEq S] (s : Store A S) (env : Env A)
    (a : A) :
    machine.step s ⟨env, .initializeAdmin a⟩ =
      if (adminOf s).isSome then (.error (.error .alreadyInitialized), s)
      else (.ok .unit, s.setInstance .admin a) := by
  simp only [machine, guestMachine, exec, map_run, initializeAdmin_run]
  cases adminOf s with
  | none => rfl
  | some b => rfl

/-- One invocation of `add_credential`, as a case distinction. -/
theorem step_addCredential [DecidableEq S] (s : Store A S) (env : Env A)
    (w : A) (t : S) (sid : HostString) (d : UInt64) (h : HostString) :
    machine.step s ⟨env, .addCredential w t sid d h⟩ =
      if SignedBy (adminOf s) env then
        if credentialExists s w t sid then
          (.error (.error .credentialAlreadyExists), s)
        else
          (.ok (.credentialId (credentialCounter s w + 1)),
            acceptCredential s ⟨credentialCounter s w + 1, w, t, sid, d, h⟩)
      else (.error (refusal .notInitialized (adminOf s)), s) := by
  simp only [machine, guestMachine, exec, map_run, addCredential_run]
  by_cases hSigned : SignedBy (adminOf s) env
  · by_cases hExists : credentialExists s w t sid
    · simp only [hSigned, hExists, if_true]
    · simp only [hSigned, hExists, if_true]
      rfl
  · simp only [hSigned, if_false]

/-- One invocation of `add_archive_record`, as a case distinction. -/
theorem step_addArchiveRecord [DecidableEq S] (s : Store A S) (env : Env A)
    (w : A) (root : BytesN 32) (count : UInt32) (time : UInt64)
    (cid : HostString) :
    machine.step s ⟨env, .addArchiveRecord w root count time cid⟩ =
      if SignedBy (adminOf s) env then
        (.ok .unit, anchorArchive s w ⟨root, count, time, cid⟩)
      else (.error (refusal .notInitialized (adminOf s)), s) := by
  simp only [machine, guestMachine, exec, map_run, addArchiveRecord_run]
  by_cases hSigned : SignedBy (adminOf s) env
  · simp only [hSigned, if_true]
  · simp only [hSigned, if_false]

/-- One invocation of `remove_credentials`, as a case distinction. -/
theorem step_removeCredentials [DecidableEq S] (s : Store A S) (env : Env A)
    (w : A) (sids : List HostString) :
    machine.step s ⟨env, .removeCredentials w sids⟩ =
      if SignedBy (adminOf s) env then
        if archiveIndex s w = 0 then (.error (.error .archiveRecordRequired), s)
        else (.ok .unit, pruneCredentials s w sids)
      else (.error (refusal .notInitialized (adminOf s)), s) := by
  simp only [machine, guestMachine, exec, map_run, removeCredentials_run]
  by_cases hSigned : SignedBy (adminOf s) env
  · by_cases hGuard : archiveIndex s w = 0
    · simp only [hSigned, hGuard, if_true]
    · simp only [hSigned, hGuard, if_true, if_false]
  · simp only [hSigned, if_false]

/-! ## Transitions -/

/-- Everything a call can do to storage, with the answer it gives: nothing, or
one of the four writes, each with the checks that it has passed. -/
inductive Transition [DecidableEq S] (s : Store A S) :
    Invocation A (Call A S) → Answer → Store A S → Prop
  | refused (i : Invocation A (Call A S)) (e : Failure ContractError) :
      Transition s i (.error e) s
  | initialized (env : Env A) (a : A) (hAdmin : adminOf s = none) :
      Transition s ⟨env, .initializeAdmin a⟩ (.ok .unit)
        (s.setInstance .admin a)
  | accepted (env : Env A) (w : A) (t : S) (sid : HostString) (d : UInt64)
      (h : HostString) (hSigned : SignedBy (adminOf s) env)
      (hFresh : (t, sid) ∉ (getCredentials s w).map dedupKey) :
      Transition s ⟨env, .addCredential w t sid d h⟩
        (.ok (.credentialId (credentialCounter s w + 1)))
        (acceptCredential s ⟨credentialCounter s w + 1, w, t, sid, d, h⟩)
  | anchored (env : Env A) (w : A) (root : BytesN 32) (count : UInt32)
      (time : UInt64) (cid : HostString)
      (hSigned : SignedBy (adminOf s) env) :
      Transition s ⟨env, .addArchiveRecord w root count time cid⟩ (.ok .unit)
        (anchorArchive s w ⟨root, count, time, cid⟩)
  | pruned (env : Env A) (w : A) (sids : List HostString)
      (hSigned : SignedBy (adminOf s) env) (hGuard : archiveIndex s w ≠ 0) :
      Transition s ⟨env, .removeCredentials w sids⟩ (.ok .unit)
        (pruneCredentials s w sids)

/-- Every step of the machine is a transition. Invariants are proved by its
cases, without a look at the code of the entry points. -/
theorem step_transition [DecidableEq S] (s : Store A S)
    (i : Invocation A (Call A S)) :
    Transition s i (machine.step s i).1 (machine.step s i).2 := by
  obtain ⟨env, call⟩ := i
  cases call with
  | initializeAdmin a =>
      rw [step_initializeAdmin]
      cases hAdmin : adminOf s with
      | none => exact .initialized env a hAdmin
      | some b => exact .refused _ _
  | addCredential w t sid d h =>
      rw [step_addCredential]
      by_cases hSigned : SignedBy (adminOf s) env
      · rw [if_pos hSigned]
        by_cases hExists : credentialExists s w t sid
        · rw [if_pos hExists]
          exact .refused _ _
        · rw [if_neg hExists]
          rw [credentialExists_iff_mem] at hExists
          exact .accepted env w t sid d h hSigned hExists
      · rw [if_neg hSigned]
        exact .refused _ _
  | addArchiveRecord w root count time cid =>
      rw [step_addArchiveRecord]
      by_cases hSigned : SignedBy (adminOf s) env
      · rw [if_pos hSigned]
        exact .anchored env w root count time cid hSigned
      · rw [if_neg hSigned]
        exact .refused _ _
  | removeCredentials w sids =>
      rw [step_removeCredentials]
      by_cases hSigned : SignedBy (adminOf s) env
      · rw [if_pos hSigned]
        by_cases hGuard : archiveIndex s w = 0
        · rw [if_pos hGuard]
          exact .refused _ _
        · rw [if_neg hGuard]
          exact .pruned env w sids hSigned hGuard
      · rw [if_neg hSigned]
        exact .refused _ _

/-- A relation between state and history that every transition keeps holds
along every run. -/
theorem transition_induction [DecidableEq S]
    {R : Store A S → List (Invocation A (Call A S) × Answer) → Prop}
    (hInit : R (machine : Machine (Store A S) _ _).init [])
    (hStep : ∀ s history i answer s', Transition s i answer s' →
      R s history → R s' (history ++ [(i, answer)]))
    (is : List (Invocation A (Call A S))) :
    R (machine.run is) (machine.history is) :=
  machine.history_invariant hInit
    (fun s history i h => hStep s history i _ _ (step_transition s i) h) is

/-- The same along runs whose states all satisfy `P`. -/
theorem transition_induction_along [DecidableEq S] {P : Store A S → Prop}
    {R : Store A S → List (Invocation A (Call A S) × Answer) → Prop}
    (hInit : R (machine : Machine (Store A S) _ _).init [])
    (hStep : ∀ s history i answer s', Transition s i answer s' → P s →
      R s history → R s' (history ++ [(i, answer)]))
    {is : List (Invocation A (Call A S))} (hAlong : machine.Along P is) :
    R (machine.run is) (machine.history is) :=
  machine.history_invariant_along hInit
    (fun s history i hP _ h => hStep s history i _ _ (step_transition s i) hP h)
    hAlong

/-! ## Views of the new state -/

section Views

variable (s : Store A S) (w v : A) (a : A) (r : CredentialRecord A S)
  (ar : ArchiveRecord) (sids : List HostString) (i : Nat)

@[simp] theorem adminOf_setAdmin : adminOf (s.setInstance .admin a) = some a := by
  simp [adminOf]

@[simp] theorem getCredentials_setAdmin :
    getCredentials (s.setInstance .admin a) w = getCredentials s w := rfl

@[simp] theorem credentialCounter_setAdmin :
    credentialCounter (s.setInstance .admin a) w = credentialCounter s w := by
  simp [credentialCounter]

@[simp] theorem archiveIndex_setAdmin :
    archiveIndex (s.setInstance .admin a) w = archiveIndex s w := by
  simp [archiveIndex]

@[simp] theorem archiveAt_setAdmin :
    archiveAt (s.setInstance .admin a) w i = archiveAt s w i := rfl

@[simp] theorem adminOf_acceptCredential :
    adminOf (acceptCredential s r) = adminOf s := by
  simp [adminOf, acceptCredential]

@[simp] theorem getCredentials_acceptCredential :
    getCredentials (acceptCredential s r) w =
      if w = r.wallet then getCredentials s w ++ [r] else getCredentials s w := by
  by_cases hw : w = r.wallet
  · subst hw
    simp [getCredentials, acceptCredential]
  · simp [getCredentials, acceptCredential, hw]

@[simp] theorem credentialCounter_acceptCredential :
    credentialCounter (acceptCredential s r) w =
      if w = r.wallet then r.id else credentialCounter s w := by
  by_cases hw : w = r.wallet
  · subst hw
    simp [credentialCounter, acceptCredential]
  · simp [credentialCounter, acceptCredential, hw]

@[simp] theorem archiveIndex_acceptCredential :
    archiveIndex (acceptCredential s r) w = archiveIndex s w := by
  simp [archiveIndex, acceptCredential]

@[simp] theorem archiveAt_acceptCredential :
    archiveAt (acceptCredential s r) w i = archiveAt s w i := by
  simp [archiveAt, acceptCredential]

@[simp] theorem adminOf_anchorArchive :
    adminOf (anchorArchive s v ar) = adminOf s := by
  simp [adminOf, anchorArchive]

@[simp] theorem getCredentials_anchorArchive :
    getCredentials (anchorArchive s v ar) w = getCredentials s w := by
  simp [getCredentials, anchorArchive]

@[simp] theorem credentialCounter_anchorArchive :
    credentialCounter (anchorArchive s v ar) w = credentialCounter s w := by
  simp [credentialCounter, anchorArchive]

@[simp] theorem archiveIndex_anchorArchive :
    archiveIndex (anchorArchive s v ar) w =
      if w = v then archiveIndex s w + 1 else archiveIndex s w := by
  by_cases hw : w = v
  · subst hw
    simp [archiveIndex, anchorArchive]
  · simp [archiveIndex, anchorArchive, hw]

/-- The record goes under the index as it was before; every other slot of every
wallet is left alone. -/
theorem archiveAt_anchorArchive :
    archiveAt (anchorArchive s v ar) w i =
      if w = v ∧ UInt32.ofNat i = archiveIndex s v then some ar
      else archiveAt s w i := by
  by_cases hw : w = v ∧ UInt32.ofNat i = archiveIndex s v
  · obtain ⟨rfl, hi⟩ := hw
    rw [if_pos ⟨rfl, hi⟩]
    unfold archiveAt anchorArchive
    rw [← hi]
    exact Storage.get_set_self (V := DataKey.Value A S) _
      (.archiveRecord w (.ofNat i)) ar
  · rw [if_neg hw]
    have hKey : DataKey.archiveRecord w (UInt32.ofNat i) ≠
        DataKey.archiveRecord v (archiveIndex s v) := by
      simpa using hw
    simp [archiveAt, anchorArchive, hKey]

@[simp] theorem adminOf_pruneCredentials :
    adminOf (pruneCredentials s v sids) = adminOf s := rfl

@[simp] theorem getCredentials_pruneCredentials :
    getCredentials (pruneCredentials s v sids) w =
      if w = v then dropBy CredentialRecord.sourceId sids (getCredentials s w)
      else getCredentials s w := by
  by_cases hw : w = v
  · subst hw
    simp [getCredentials, pruneCredentials]
  · simp [getCredentials, pruneCredentials, hw]

@[simp] theorem credentialCounter_pruneCredentials :
    credentialCounter (pruneCredentials s v sids) w = credentialCounter s w :=
  rfl

@[simp] theorem archiveIndex_pruneCredentials :
    archiveIndex (pruneCredentials s v sids) w = archiveIndex s w := rfl

@[simp] theorem archiveAt_pruneCredentials :
    archiveAt (pruneCredentials s v sids) w i = archiveAt s w i := by
  simp [archiveAt, pruneCredentials]

end Views

/-! ## Access control -/

section Access

variable [DecidableEq S]

/-- The administrator a call installed, if it did. -/
def installs : Invocation A (Call A S) × Answer → Option A
  | (⟨_, .initializeAdmin a⟩, .ok _) => some a
  | _ => none

/-- Only the installing call does without the administrator. -/
theorem adminStep {s s' : Store A S} {i : Invocation A (Call A S)}
    {answer : Answer} (hStep : Transition s i answer s') :
    AdminStep adminOf (fun _ => False) s i (installs (i, answer)) s' := by
  cases hStep with
  | refused i e =>
      refine .refused ?_ rfl
      obtain ⟨env, call⟩ := i
      cases call with
      | initializeAdmin a => rfl
      | addCredential w t sid d h => rfl
      | addArchiveRecord w root count time cid => rfl
      | removeCredentials w sids => rfl
  | initialized env a hAdmin => exact .installs a rfl hAdmin (by simp)
  | accepted env w t sid d h hSigned hFresh =>
      exact .signed rfl hSigned (by simp)
  | anchored env w root count time cid hSigned =>
      exact .signed rfl hSigned (by simp)
  | pruned env w sids hSigned hGuard => exact .signed rfl hSigned (by simp)

/-- Every write needs the signature of the stored administrator; there is no
call that another address may authorise. -/
theorem adminGuarded : AdminGuarded (machine : Machine (Store A S) _ _) adminOf
    installs (fun _ => False) where
  fresh := rfl
  idle := fun _ h => h.elim
  steps := fun s i => adminStep (step_transition s i)

end Access

end ForgePass.Contracts.CredentialStore
