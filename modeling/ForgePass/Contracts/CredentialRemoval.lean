import ForgePass.Contracts.CredentialStoreSpec
import ForgePass.Verified.Simulation

/-!
# The algebra of `remove_credentials`

A removal that passes its guard filters one live set by a set of source ids
and touches nothing else.  So batches may be split, joined, reordered and
repeated, and a removal commutes with the addition of a credential it does not
name.  The equations are between whole stores, and hold in every store, the
unreachable ones included.
-/

namespace ForgePass.Contracts.CredentialStore

open ForgePass.Verified

variable {A S : Type} [DecidableEq A]

/-! ## Effects -/

/-- Two removals are one removal of both lists. -/
theorem pruneCredentials_pruneCredentials (s : Store A S) (w : A)
    (xs ys : List HostString) :
    pruneCredentials (pruneCredentials s w xs) w ys =
      pruneCredentials s w (xs ++ ys) := by
  have hLive := getCredentials_pruneCredentials s w w xs
  rw [if_pos rfl] at hLive
  unfold pruneCredentials at hLive ⊢
  rw [hLive, dropBy_dropBy, Ledger.setPersistent_setPersistent]

/-- Only what a removal says of the sources of live records matters. -/
theorem pruneCredentials_congr {s : Store A S} {w : A}
    {xs ys : List HostString}
    (h : ∀ r ∈ getCredentials s w, r.sourceId ∈ xs ↔ r.sourceId ∈ ys) :
    pruneCredentials s w xs = pruneCredentials s w ys := by
  unfold pruneCredentials
  rw [dropBy_congr h]

/-- A removal and an addition that it does not name may change places; the id
comes from the counter, which no removal touches. -/
theorem acceptCredential_pruneCredentials (s : Store A S)
    {r : CredentialRecord A S} {xs : List HostString} (h : r.sourceId ∉ xs) :
    acceptCredential (pruneCredentials s r.wallet xs) r =
      pruneCredentials (acceptCredential s r) r.wallet xs := by
  have hPruned := getCredentials_pruneCredentials s r.wallet r.wallet xs
  have hAccepted := getCredentials_acceptCredential s r.wallet r
  rw [if_pos rfl] at hPruned hAccepted
  have hLeft : acceptCredential (pruneCredentials s r.wallet xs) r =
      ((pruneCredentials s r.wallet xs).setPersistent (.credentials r.wallet)
        (dropBy CredentialRecord.sourceId xs (getCredentials s r.wallet) ++
          [r])).setInstance (.credentialCounter r.wallet) r.id := by
    unfold acceptCredential
    rw [hPruned]
  have hRight : pruneCredentials (acceptCredential s r) r.wallet xs =
      (acceptCredential s r).setPersistent (.credentials r.wallet)
        (dropBy CredentialRecord.sourceId xs
          (getCredentials s r.wallet ++ [r])) := by
    unfold pruneCredentials
    rw [hAccepted]
  rw [hLeft, hRight, dropBy_concat _ h]
  unfold acceptCredential pruneCredentials
  rw [Ledger.setPersistent_setPersistent, Ledger.setInstance_setPersistent,
    Ledger.setPersistent_setPersistent]

/-- What a removal on `w` leaves alone: every counter, every archive record and
the live sets of all other wallets. -/
structure SameButLive (w : A) (s s' : Store A S) : Prop where
  counters : ∀ v, credentialCounter s' v = credentialCounter s v
  indexes : ∀ v, archiveIndex s' v = archiveIndex s v
  archives : ∀ v, getArchiveRecords s' v = getArchiveRecords s v
  others : ∀ v, v ≠ w → getCredentials s' v = getCredentials s v
  /-- In fact the whole instance tier, and every persistent entry but one. -/
  instanceTier : s'.instanceTier = s.instanceTier
  persistentTier : ∀ k, k ≠ .credentials w →
    s'.persistentTier.get k = s.persistentTier.get k

/-- A removal changes the live set of its wallet and nothing else. -/
theorem sameButLive_pruneCredentials (s : Store A S) (w : A)
    (xs : List HostString) : SameButLive w s (pruneCredentials s w xs) where
  counters := fun v => credentialCounter_pruneCredentials s v w xs
  indexes := fun v => archiveIndex_pruneCredentials s v w xs
  archives := by
    intro v
    rw [getArchiveRecords_eq, getArchiveRecords_eq,
      archiveIndex_pruneCredentials]
    apply List.filterMap_congr
    intro i hi
    exact archiveAt_pruneCredentials s v w xs i
  others := by
    intro v hv
    rw [getCredentials_pruneCredentials, if_neg hv]
  instanceTier := rfl
  persistentTier := fun k hk => Storage.get_set_of_ne _ hk _

/-! ## Calls -/

omit [DecidableEq A] in
/-- A nonempty archive was counted, in any store. -/
theorem archiveIndex_ne_zero {s : Store A S} {w : A}
    (h : getArchiveRecords s w ≠ []) : archiveIndex s w ≠ 0 := by
  intro hZero
  apply h
  rw [getArchiveRecords_eq, hZero]
  rfl

/-- A removal on `w` that the guard lets past. What the removal names does not
matter here. -/
structure Passes (w : A) (s : Store A S) (env : Env A) : Prop where
  signed : SignedBy (adminOf s) env
  guard : archiveIndex s w ≠ 0

/-- What lets a removal pass lets it pass again after a removal. -/
theorem Passes.prune {w : A} {s : Store A S} {env : Env A}
    (h : Passes w s env) (xs : List HostString) :
    Passes w (pruneCredentials s w xs) env where
  signed := by
    rw [adminOf_pruneCredentials]
    exact h.signed
  guard := by
    rw [archiveIndex_pruneCredentials]
    exact h.guard

/-- And after an addition. -/
theorem Passes.accept {w : A} {s : Store A S} {env : Env A}
    (h : Passes w s env) (r : CredentialRecord A S) :
    Passes w (acceptCredential s r) env where
  signed := by
    rw [adminOf_acceptCredential]
    exact h.signed
  guard := by
    rw [archiveIndex_acceptCredential]
    exact h.guard

variable [DecidableEq S]

/-- A removal past the guard, as one rewrite. -/
theorem Passes.step {w : A} {s : Store A S} {env : Env A}
    (h : Passes w s env) (xs : List HostString) :
    machine.step s ⟨env, .removeCredentials w xs⟩ =
      (.ok .unit, pruneCredentials s w xs) := by
  rw [step_removeCredentials, if_pos h.signed, if_neg h.guard]

theorem Passes.runFrom_two {w : A} {s : Store A S} {env : Env A}
    (h : Passes w s env) (xs ys : List HostString) :
    machine.runFrom s [⟨env, .removeCredentials w xs⟩,
        ⟨env, .removeCredentials w ys⟩] =
      pruneCredentials s w (xs ++ ys) := by
  unfold Machine.runFrom Machine.runFrom Machine.runFrom
  rw [h.step, (h.prune xs).step, pruneCredentials_pruneCredentials]

omit [DecidableEq S] in
/-- A pair whose source id is not removed is live before exactly if it is live
after. -/
theorem mem_dedupKeys_pruneCredentials (s : Store A S) (w : A) {t : S}
    {sid : HostString} {xs : List HostString} (h : sid ∉ xs) :
    (t, sid) ∈ (getCredentials (pruneCredentials s w xs) w).map dedupKey ↔
      (t, sid) ∈ (getCredentials s w).map dedupKey := by
  rw [getCredentials_pruneCredentials, if_pos rfl, List.mem_map, List.mem_map]
  constructor
  · rintro ⟨r, hr, hKey⟩
    exact ⟨r, (mem_dropBy.mp hr).1, hKey⟩
  · rintro ⟨r, hr, hKey⟩
    refine ⟨r, mem_dropBy.mpr ⟨hr, ?_⟩, hKey⟩
    have hSource : r.sourceId = sid := congrArg Prod.snd hKey
    rw [hSource]
    exact h

/-- The scan of `add_credential` does not see a removal of other source ids. -/
theorem credentialExists_pruneCredentials (s : Store A S) (w : A) (t : S)
    {sid : HostString} {xs : List HostString} (h : sid ∉ xs) :
    credentialExists (pruneCredentials s w xs) w t sid =
      credentialExists s w t sid := by
  rw [Bool.eq_iff_iff, credentialExists_iff_mem, credentialExists_iff_mem]
  exact mem_dedupKeys_pruneCredentials s w h

/-- An addition does not change whether the guard lets removals past. -/
theorem Passes.addCredential {w : A} {s : Store A S} {env : Env A}
    (h : Passes w s env) (e : Env A) (t : S) (sid : HostString) (d : UInt64)
    (hash : HostString) :
    Passes w (machine.step s ⟨e, .addCredential w t sid d hash⟩).2 env := by
  rw [step_addCredential]
  by_cases hSigned : SignedBy (adminOf s) e
  · rw [if_pos hSigned]
    by_cases hExists : credentialExists s w t sid
    · rw [if_pos hExists]
      exact h
    · rw [if_neg hExists]
      exact h.accept _
  · rw [if_neg hSigned]
    exact h

/-- An addition does the same before and after a removal of other source
ids. -/
theorem addCredential_pruneCredentials (s : Store A S) (w : A) (e : Env A)
    (t : S) {sid : HostString} (d : UInt64) (hash : HostString)
    {xs : List HostString} (h : sid ∉ xs) :
    Machine.Related Eq (fun added added' => added' = pruneCredentials added w xs)
      (machine.step s ⟨e, .addCredential w t sid d hash⟩)
      (machine.step (pruneCredentials s w xs)
        ⟨e, .addCredential w t sid d hash⟩) := by
  rw [step_addCredential, step_addCredential, adminOf_pruneCredentials,
    credentialExists_pruneCredentials s w t h,
    credentialCounter_pruneCredentials]
  refine .ite (fun hSigned => ?_) fun hSigned => ⟨rfl, rfl⟩
  apply Machine.Related.ite
  · intro hExists
    exact ⟨rfl, rfl⟩
  · intro hExists
    exact ⟨rfl, acceptCredential_pruneCredentials s (r :=
      ⟨credentialCounter s w + 1, w, t, sid, d, hash⟩) h⟩

/-- A removal commutes with the addition of a credential it does not name,
whoever sends that. -/
theorem Passes.commutes {w : A} {s : Store A S} {env : Env A}
    (h : Passes w s env) (e : Env A) (t : S) {sid : HostString} (d : UInt64)
    (hash : HostString) {xs : List HostString} (hSid : sid ∉ xs) :
    let add : Invocation A (Call A S) :=
      ⟨e, .addCredential w t sid d hash⟩
    let remove : Invocation A (Call A S) := ⟨env, .removeCredentials w xs⟩
    machine.runFrom s [remove, add] = machine.runFrom s [add, remove] ∧
      (machine.step (machine.step s remove).2 add).1 =
        (machine.step s add).1 ∧
      (machine.step (machine.step s add).2 remove).1 = .ok .unit := by
  intro add remove
  have hFirst : machine.step s remove = (.ok .unit, pruneCredentials s w xs) :=
    h.step xs
  have hLast : machine.step (machine.step s add).2 remove =
      (.ok .unit, pruneCredentials (machine.step s add).2 w xs) :=
    (h.addCredential e t sid d hash).step xs
  have hAdd := addCredential_pruneCredentials s w e t d hash hSid
  refine ⟨?_, ?_, ?_⟩
  · show (machine.step (machine.step s remove).2 add).2 =
      (machine.step (machine.step s add).2 remove).2
    rw [hFirst, hLast]
    exact hAdd.state
  · rw [hFirst]
    exact hAdd.answer.symm
  · rw [hLast]

/-- **Removal algebra.**  In any store in which `w` has an archive record and
the administrator signs, removals on `w` succeed, compose like the
concatenation of their lists in either order, depend only on which live records
they name, are idempotent, keep the order of what they keep, touch nothing but
the live set of `w`, and commute with the addition of a credential they do not
name. -/
theorem removal_algebra {s : Store A S} {w : A} {env : Env A}
    (hArchive : getArchiveRecords s w ≠ [])
    (hSigned : SignedBy (adminOf s) env) :
    let remove (xs : List HostString) : Invocation A (Call A S) :=
      ⟨env, .removeCredentials w xs⟩
    (∀ xs, (machine.step s (remove xs)).1 = .ok .unit) ∧
      (∀ xs ys,
        machine.runFrom s [remove xs, remove ys] =
          machine.runFrom s [remove (xs ++ ys)] ∧
        machine.runFrom s [remove xs, remove ys] =
          machine.runFrom s [remove ys, remove xs]) ∧
      (∀ xs ys,
        (∀ r ∈ getCredentials s w, r.sourceId ∈ xs ↔ r.sourceId ∈ ys) →
          machine.runFrom s [remove xs] = machine.runFrom s [remove ys]) ∧
      (∀ xs, machine.runFrom s [remove xs, remove xs] =
        machine.runFrom s [remove xs]) ∧
      (∀ xs, getCredentials (machine.runFrom s [remove xs]) w =
        dropBy CredentialRecord.sourceId xs (getCredentials s w)) ∧
      (∀ xs, SameButLive w s (machine.runFrom s [remove xs])) ∧
      (∀ e t sid d hash xs, sid ∉ xs →
        let add : Invocation A (Call A S) :=
          ⟨e, .addCredential w t sid d hash⟩
        machine.runFrom s [remove xs, add] =
            machine.runFrom s [add, remove xs] ∧
          (machine.step (machine.step s (remove xs)).2 add).1 =
            (machine.step s add).1 ∧
          (machine.step (machine.step s add).2 (remove xs)).1 = .ok .unit) := by
  intro remove
  have hPasses : Passes w s env := ⟨hSigned, archiveIndex_ne_zero hArchive⟩
  have hOne (xs) : machine.runFrom s [remove xs] = pruneCredentials s w xs :=
    congrArg Prod.snd (hPasses.step xs)
  have hTwo (xs ys) : machine.runFrom s [remove xs, remove ys] =
      pruneCredentials s w (xs ++ ys) := hPasses.runFrom_two xs ys
  refine ⟨?_, ?_, ?_, ?_, ?_, ?_, ?_⟩
  · intro xs
    exact congrArg Prod.fst (hPasses.step xs)
  · intro xs ys
    refine ⟨(hTwo xs ys).trans (hOne (xs ++ ys)).symm, ?_⟩
    rw [hTwo, hTwo]
    apply pruneCredentials_congr
    intro r hr
    rw [List.mem_append, List.mem_append, or_comm]
  · intro xs ys hSame
    rw [hOne, hOne]
    exact pruneCredentials_congr hSame
  · intro xs
    rw [hTwo, hOne]
    apply pruneCredentials_congr
    intro r hr
    rw [List.mem_append, or_self]
  · intro xs
    rw [hOne, getCredentials_pruneCredentials, if_pos rfl]
  · intro xs
    rw [hOne]
    exact sameButLive_pruneCredentials s w xs
  · intro e t sid d hash xs hSid
    exact hPasses.commutes e t d hash hSid

/-- Wallet 7 with two live credentials and one archive record. -/
def archivedStore : Store Nat SignalType :=
  let env : Env Nat := ⟨{0}, 100⟩
  machine.run
    [⟨env, .initializeAdmin 0⟩,
      ⟨env, .addCredential 7 .githubPr [1] 10 [0xaa]⟩,
      ⟨env, .addCredential 7 .hackathon [2] 11 [0xbb]⟩,
      ⟨env, .addArchiveRecord 7 (Vector.replicate 32 0) 1 12 [0xcc]⟩]

theorem removal_algebra_archivedStore :
    let env : Env Nat := ⟨{0}, 100⟩
    getCredentials (machine.runFrom archivedStore
        [⟨env, .removeCredentials 7 [[1]]⟩]) 7 =
        [⟨2, 7, .hackathon, [2], 11, [0xbb]⟩] ∧
      machine.runFrom archivedStore [⟨env, .removeCredentials 7 [[1]]⟩,
          ⟨env, .removeCredentials 7 [[2]]⟩] =
        machine.runFrom archivedStore [⟨env, .removeCredentials 7 [[2]]⟩,
          ⟨env, .removeCredentials 7 [[1]]⟩] := by
  have hArchive : getArchiveRecords archivedStore 7 ≠ [] := by decide
  have hSigned : SignedBy (adminOf archivedStore) ⟨{0}, 100⟩ := by decide
  have h := removal_algebra hArchive hSigned
  exact ⟨(h.2.2.2.2.1 [[1]]).trans (by decide), (h.2.1 [[1]] [[2]]).2⟩

end ForgePass.Contracts.CredentialStore
