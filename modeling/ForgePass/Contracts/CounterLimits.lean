import ForgePass.Contracts.Failures
import ForgePass.Verified.Allocator
import ForgePass.Verified.Counter

/-!
# Counters at their limits

Credential ids, archive slots and badge ids are all taken from a machine
counter by an unchecked `+ 1`.  Below the maximum of the counter the contracts
are allocators: each index is new, nothing is stored under it and the counter
grows.  At the maximum the counter wraps to zero, after which ids and slots
are taken a second time and the archive guard closes again.
-/

namespace ForgePass.Contracts

open ForgePass.Verified
open ForgePass.Verified.Machine

namespace CredentialStore

variable {A S : Type}

/-- An index taken from one of a wallet's two counters. -/
inductive Index (A : Type) where
  | credentialId (wallet : A) (id : UInt64)
  | archiveSlot (wallet : A) (slot : UInt32)

/-- The record in an archive slot. -/
def slotAt (s : Store A S) (w : A) (slot : UInt32) : Option ArchiveRecord :=
  s.persistentTier.get (.archiveRecord w slot)

/-- The index that a call answered in state `s` took: the id it returned, or the
slot that the archive counter named.  That the record lies under it afterwards
is said by `Holds`. -/
def indexTaken (s : Store A S) :
    Invocation A (Call A S) × Answer → Option (Index A)
  | (⟨_, .addCredential w _ _ _ _⟩, .ok (.credentialId id)) =>
      some (.credentialId w id)
  | (⟨_, .addArchiveRecord w _ _ _ _⟩, .ok _) =>
      some (.archiveSlot w (archiveIndex s w))
  | _ => none

/-- Indexes are numbered from 1 in the order of their counter. -/
def Index.number : Index A → Nat
  | .credentialId _ id => id.toNat
  | .archiveSlot _ slot => slot.toNat + 1

/-- The counter an index is taken from. Each wallet has one for its credentials
and one for its archives. -/
def counterOf (s : Store A S) : Index A → Nat
  | .credentialId w _ => (credentialCounter s w).toNat
  | .archiveSlot w _ => (archiveIndex s w).toNat

/-- Something is stored under the index: a live credential carries the id, or
the slot is filled. A removed credential is not present any more. -/
def Present (s : Store A S) : Index A → Prop
  | .credentialId w id => ∃ r ∈ getCredentials s w, r.id = id
  | .archiveSlot w slot => slotAt s w slot ≠ none

/-- Under the index lies the record that the call brought: a credential of that
id in the live set, or the archive record in that slot. -/
def Holds (s : Store A S) (call : Call A S) : Index A → Prop
  | .credentialId w id => ∃ t sid d h, call = .addCredential w t sid d h ∧
      ⟨id, w, t, sid, d, h⟩ ∈ getCredentials s w
  | .archiveSlot w slot => ∃ root count time cid,
      call = .addArchiveRecord w root count time cid ∧
        slotAt s w slot = some ⟨root, count, time, cid⟩

variable [DecidableEq A]

/-- Anchoring writes the slot that the index names and no other. -/
theorem slotAt_anchorArchive (s : Store A S) (v : A) (r : ArchiveRecord)
    (w : A) (slot : UInt32) :
    slotAt (anchorArchive s v r) w slot =
      if w = v ∧ slot = archiveIndex s v then some r else slotAt s w slot := by
  have h := archiveAt_anchorArchive s w v r slot.toNat
  unfold archiveAt at h
  rw [UInt32.ofNat_toNat] at h
  exact h

theorem slotAt_acceptCredential (s : Store A S) (r : CredentialRecord A S)
    (w : A) (slot : UInt32) :
    slotAt (acceptCredential s r) w slot = slotAt s w slot := by
  simp [slotAt, acceptCredential]

theorem slotAt_pruneCredentials (s : Store A S) (v : A)
    (sids : List HostString) (w : A) (slot : UInt32) :
    slotAt (pruneCredentials s v sids) w slot = slotAt s w slot := by
  simp [slotAt, pruneCredentials]

variable [DecidableEq S]

/-- A mint that passes its checks finds the counter below the maximum. Nothing
is asked of calls that are refused: they use no number. -/
def RoomLeft (s : Store A S) (i : Invocation A (Call A S)) : Prop :=
  match i.call with
  | .addCredential w t sid _ _ =>
      SignedBy (adminOf s) i.env ∧ credentialExists s w t sid = false →
        (credentialCounter s w).toNat + 1 < UInt64.size
  | .addArchiveRecord w _ _ _ _ =>
      SignedBy (adminOf s) i.env →
        (archiveIndex s w).toNat + 1 < UInt32.size
  | _ => True

omit [DecidableEq A] [DecidableEq S] in
theorem indexTaken_refused (s : Store A S) (i : Invocation A (Call A S))
    (e : Failure ContractError) : indexTaken s (i, .error e) = none := by
  obtain ⟨env, call⟩ := i
  cases call with
  | initializeAdmin a => rfl
  | addCredential w t sid d h => rfl
  | addArchiveRecord w root count time cid => rfl
  | removeCredentials w sids => rfl

omit [DecidableEq A] in
/-- What an accepted credential finds. -/
theorem RoomLeft.credential {s : Store A S} {env : Env A} {w : A} {t : S}
    {sid : HostString} {d : UInt64} {h : HostString}
    (hRoom : RoomLeft s ⟨env, .addCredential w t sid d h⟩)
    (hSigned : SignedBy (adminOf s) env)
    (hFresh : (t, sid) ∉ (getCredentials s w).map dedupKey) :
    (credentialCounter s w).toNat + 1 < UInt64.size := by
  refine hRoom ⟨hSigned, ?_⟩
  rw [← Bool.not_eq_true, credentialExists_iff_mem]
  exact hFresh

/-- A call with room leaves no counter smaller than it was. -/
theorem counterOf_monotone {s s' : Store A S} {i : Invocation A (Call A S)}
    {answer : Answer} (hStep : Transition s i answer s')
    (hRoom : RoomLeft s i) (x : Index A) : counterOf s x ≤ counterOf s' x := by
  cases hStep with
  | refused i e => exact Nat.le_refl _
  | initialized env a hAdmin =>
      cases x with
      | credentialId v id => simp [counterOf]
      | archiveSlot v slot => simp [counterOf]
  | accepted env w t sid d h hSigned hFresh =>
      have hSucc := uint64_toNat_succ (hRoom.credential hSigned hFresh)
      cases x with
      | credentialId v id =>
          by_cases hv : v = w
          · subst hv
            simp [counterOf, hSucc]
          · simp [counterOf, hv]
      | archiveSlot v slot => simp [counterOf]
  | anchored env w root count time cid hSigned =>
      have hSucc := uint32_toNat_succ (hRoom hSigned)
      cases x with
      | credentialId v id => simp [counterOf]
      | archiveSlot v slot =>
          by_cases hv : v = w
          · subst hv
            simp [counterOf, hSucc]
          · simp [counterOf, hv]
  | pruned env w sids hSigned hGuard => exact Nat.le_refl _

/-- An index taken is the next of its counter. -/
theorem indexTaken_next {s s' : Store A S} {i : Invocation A (Call A S)}
    {answer : Answer} (hStep : Transition s i answer s')
    (hRoom : RoomLeft s i) {x : Index A}
    (hTaken : indexTaken s (i, answer) = some x) :
    x.number = counterOf s x + 1 ∧ counterOf s' x = counterOf s x + 1 := by
  cases hStep with
  | refused i e =>
      rw [indexTaken_refused] at hTaken
      cases hTaken
  | initialized env a hAdmin => cases hTaken
  | accepted env w t sid d h hSigned hFresh =>
      have hSucc := uint64_toNat_succ (hRoom.credential hSigned hFresh)
      cases hTaken
      refine ⟨hSucc, ?_⟩
      simp [counterOf, hSucc]
  | anchored env w root count time cid hSigned =>
      have hSucc := uint32_toNat_succ (hRoom hSigned)
      cases hTaken
      refine ⟨rfl, ?_⟩
      simp [counterOf, hSucc]
  | pruned env w sids hSigned hGuard => cases hTaken

/-- Only the index taken is written: what is present after a call was present
before, or lies under that index. -/
theorem present_step {s s' : Store A S} {i : Invocation A (Call A S)}
    {answer : Answer} (hStep : Transition s i answer s') {x : Index A}
    (hPresent : Present s' x) :
    Present s x ∨ indexTaken s (i, answer) = some x := by
  cases hStep with
  | refused i e => exact .inl hPresent
  | initialized env a hAdmin =>
      cases x with
      | credentialId v id => exact .inl hPresent
      | archiveSlot v slot => exact .inl hPresent
  | accepted env w t sid d h hSigned hFresh =>
      cases x with
      | credentialId v id =>
          obtain ⟨r, hr, rfl⟩ := hPresent
          rw [getCredentials_acceptCredential] at hr
          by_cases hv : v = w
          · subst hv
            rw [if_pos rfl, List.mem_append, List.mem_singleton] at hr
            rcases hr with hOld | rfl
            · exact .inl ⟨r, hOld, rfl⟩
            · exact .inr rfl
          · rw [if_neg hv] at hr
            exact .inl ⟨r, hr, rfl⟩
      | archiveSlot v slot =>
          simp only [Present, slotAt_acceptCredential] at hPresent
          exact .inl hPresent
  | anchored env w root count time cid hSigned =>
      cases x with
      | credentialId v id =>
          obtain ⟨r, hr, rfl⟩ := hPresent
          rw [getCredentials_anchorArchive] at hr
          exact .inl ⟨r, hr, rfl⟩
      | archiveSlot v slot =>
          simp only [Present, slotAt_anchorArchive] at hPresent
          by_cases hSlot : v = w ∧ slot = archiveIndex s w
          · obtain ⟨rfl, rfl⟩ := hSlot
            exact .inr rfl
          · rw [if_neg hSlot] at hPresent
            exact .inl hPresent
  | pruned env w sids hSigned hGuard =>
      cases x with
      | credentialId v id =>
          obtain ⟨r, hr, rfl⟩ := hPresent
          rw [getCredentials_pruneCredentials] at hr
          by_cases hv : v = w
          · subst hv
            rw [if_pos rfl, mem_dropBy] at hr
            exact .inl ⟨r, hr.1, rfl⟩
          · rw [if_neg hv] at hr
            exact .inl ⟨r, hr, rfl⟩
      | archiveSlot v slot =>
          simp only [Present, slotAt_pruneCredentials] at hPresent
          exact .inl hPresent

/-- The record of an accepted call lies under the index it took, with the
fields that the call brought. -/
theorem holds_step {s s' : Store A S} {i : Invocation A (Call A S)}
    {answer : Answer} (hStep : Transition s i answer s') {x : Index A}
    (hTaken : indexTaken s (i, answer) = some x) : Holds s' i.call x := by
  cases hStep with
  | refused i e =>
      rw [indexTaken_refused] at hTaken
      cases hTaken
  | initialized env a hAdmin => cases hTaken
  | accepted env w t sid d h hSigned hFresh =>
      cases hTaken
      exact ⟨t, sid, d, h, rfl, by simp⟩
  | anchored env w root count time cid hSigned =>
      cases hTaken
      refine ⟨root, count, time, cid, rfl, ?_⟩
      rw [slotAt_anchorArchive, if_pos ⟨rfl, rfl⟩]
  | pruned env w sids hSigned hGuard => cases hTaken

/-- A call that takes no filled slot leaves all filled slots as they are. Below
the maximum of the index no call takes one. -/
theorem slotAt_kept {s s' : Store A S} {i : Invocation A (Call A S)}
    {answer : Answer} (hStep : Transition s i answer s')
    (hVacant : ∀ x, indexTaken s (i, answer) = some x → ¬Present s x) {w : A}
    {slot : UInt32} {r : ArchiveRecord} (hFilled : slotAt s w slot = some r) :
    slotAt s' w slot = some r := by
  cases hStep with
  | refused i e => exact hFilled
  | initialized env a hAdmin => exact hFilled
  | accepted env v t sid d h hSigned hFresh =>
      rw [slotAt_acceptCredential, hFilled]
  | anchored env v root count time cid hSigned =>
      rw [slotAt_anchorArchive, if_neg, hFilled]
      rintro ⟨rfl, rfl⟩
      apply hVacant (.archiveSlot w (archiveIndex s w)) rfl
      show slotAt s w _ ≠ none
      rw [hFilled]
      exact Option.some_ne_none r
  | pruned env v sids hSigned hGuard =>
      rw [slotAt_pruneCredentials, hFilled]

/-- If the counter of the index taken grew, it was below its maximum: from
there one step up leads to 0. -/
theorem roomLeft_of_grows {s : Store A S} {i : Invocation A (Call A S)}
    (hGrows : ∀ x, indexTaken s (i, (machine.step s i).1) = some x →
      counterOf s x < counterOf (machine.step s i).2 x) : RoomLeft s i := by
  obtain ⟨env, call⟩ := i
  cases call with
  | initializeAdmin a => trivial
  | addCredential w t sid d h =>
      rintro ⟨hSigned, hFresh⟩
      have hMissing : ¬credentialExists s w t sid = true :=
        Bool.eq_false_iff.mp hFresh
      rw [step_addCredential, if_pos hSigned, if_neg hMissing] at hGrows
      have hCounter := hGrows (.credentialId w (credentialCounter s w + 1)) rfl
      simp only [counterOf, credentialCounter_acceptCredential, if_true]
        at hCounter
      exact uint64_below_of_lt_succ hCounter
  | addArchiveRecord w root count time cid =>
      intro hSigned
      rw [step_addArchiveRecord, if_pos hSigned] at hGrows
      have hCounter := hGrows (.archiveSlot w (archiveIndex s w)) rfl
      simp only [counterOf, archiveIndex_anchorArchive, if_true] at hCounter
      exact uint32_below_of_lt_succ hCounter
  | removeCredentials w sids => trivial

/-- The index a call takes. -/
def takes (s : Store A S) (i : Invocation A (Call A S)) : Option (Index A) :=
  indexTaken s (i, (machine.step s i).1)

/-- Credential ids and archive slots are handed out as an allocator does: each
call that takes a number takes the one after its counter. -/
theorem allocator : Allocator (machine : Machine (Store A S) _ _) takes
    Index.number counterOf Present RoomLeft where
  start := by
    intro x
    cases x with
    | credentialId w id => simp [Present, getCredentials, machine, guestMachine]
    | archiveSlot w slot => simp [Present, slotAt, machine, guestMachine]
  next s i _ hRoom hTakes := indexTaken_next (step_transition s i) hRoom hTakes
  monotone s i x hRoom := counterOf_monotone (step_transition s i) hRoom x
  writes s i _ _ hPresent := present_step (step_transition s i) hPresent
  needed _ _ hGrows := roomLeft_of_grows hGrows

/-! ## The archive guard -/

/-- A removal that misses an archive record finds no slot filled: the guard is
closed only to wallets that have no archive record at all. -/
def GuardHolds (s : Store A S) (i : Invocation A (Call A S)) : Prop :=
  ∀ w sids, i.call = .removeCredentials w sids →
    (machine.step s i).1 = .error (.error .archiveRecordRequired) →
      ∀ slot, slotAt s w slot = none

/-- The guard answers `ArchiveRecordRequired` only where the index is 0. -/
theorem archiveIndex_of_required {s : Store A S} {env : Env A} {w : A}
    {sids : List HostString}
    (h : (machine.step s ⟨env, .removeCredentials w sids⟩).1 =
      .error (.error .archiveRecordRequired)) : archiveIndex s w = 0 := by
  rw [step_removeCredentials] at h
  by_cases hSigned : SignedBy (adminOf s) env
  · rw [if_pos hSigned] at h
    by_contra hIndex
    rw [if_neg hIndex] at h
    cases h
  · rw [if_neg hSigned] at h
    cases hAdmin : adminOf s with
    | none => simp [hAdmin, refusal] at h
    | some a => simp [hAdmin, refusal] at h

/-- Where every call so far found room, the index is 0 only before the first
archive, so the guard stays open once opened. -/
theorem guardHolds_of_each {is : List (Invocation A (Call A S))}
    (h : machine.Each RoomLeft is) (i : Invocation A (Call A S)) :
    GuardHolds (machine.run is) i := by
  obtain ⟨env, call⟩ := i
  rintro w sids rfl hRequired slot
  have hIndex := archiveIndex_of_required hRequired
  by_contra hFilled
  have hBehind := allocator.present_behind h (.archiveSlot w slot) hFilled
  simp [Index.number, counterOf, hIndex] at hBehind

/-! ## Whole runs -/

/-- What is expected of the call `i` after the run `p`: the index it takes is
new and vacant and its counter grows, its record then lies under that index,
every archive record stored before is still there, a failing call changes
nothing, and the guard of removals is right. -/
structure CountersSound (p : List (Invocation A (Call A S)))
    (i : Invocation A (Call A S)) : Prop where
  index : TakesSoundly machine takes counterOf Present p i
  holds : ∀ x, takes (machine.run p) i = some x →
    Holds (machine.step (machine.run p) i).2 i.call x
  kept : ∀ w slot r, slotAt (machine.run p) w slot = some r →
    slotAt (machine.step (machine.run p) i).2 w slot = some r
  unchanged : ∀ e, (machine.step (machine.run p) i).1 = .error e →
    (machine.step (machine.run p) i).2 = machine.run p
  guarded : GuardHolds (machine.run p) i

/-- The counters of the credential store are sound along a run exactly if every
call of the run finds room in the counter it uses. -/
theorem countersSound_iff (is : List (Invocation A (Call A S))) :
    (∀ p i, p ++ [i] <+: is → CountersSound p i) ↔
      machine.Each RoomLeft is := by
  constructor
  · intro h
    exact (allocator.soundly_iff is).mp fun p i hp => (h p i hp).index
  · intro h p i hp
    have hPart := h.earlier ((List.prefix_append p [i]).trans hp)
    have hIndex := (allocator.soundly_iff is).mpr h p i hp
    have hStep := step_transition (machine.run p) i
    exact
      { index := hIndex
        holds := fun _ hTakes => holds_step hStep hTakes
        kept := fun _ _ _ hFilled => slotAt_kept hStep hIndex.vacant hFilled
        unchanged := failsExactly.atomic _ i
        guarded := guardHolds_of_each hPart i }

/-! ## Past the limit -/

/-- An archive record for wallet 7 of administrator 0. -/
def anchorSeven : Invocation Nat (Call Nat SignalType) :=
  ⟨⟨{0}, 100⟩, .addArchiveRecord 7 (Vector.replicate 32 0) 1 10 [0xaa]⟩

/-- `n` archive records for wallet 7. -/
def anchoredTimes (n : Nat) : List (Invocation Nat (Call Nat SignalType)) :=
  [⟨⟨{0}, 100⟩, .initializeAdmin 0⟩] ++ List.replicate n anchorSeven

theorem anchoredTimes_succ (n : Nat) :
    anchoredTimes (n + 1) = anchoredTimes n ++ [anchorSeven] := by
  unfold anchoredTimes
  rw [List.replicate_succ', List.append_assoc]

/-- The index counts the records modulo its width, and slots stay filled. -/
theorem run_anchoredTimes (n : Nat) :
    adminOf (machine.run (anchoredTimes n)) = some 0 ∧
      archiveIndex (machine.run (anchoredTimes n)) 7 = .ofNat n ∧
      (n ≠ 0 → slotAt (machine.run (anchoredTimes n)) 7 0 ≠ none) := by
  induction n with
  | zero => exact ⟨rfl, rfl, fun hZero => absurd rfl hZero⟩
  | succ n ih =>
      obtain ⟨hAdmin, hIndex, hFilled⟩ := ih
      have hSigned : SignedBy (adminOf (machine.run (anchoredTimes n)))
          ⟨{0}, 100⟩ := by simp [hAdmin]
      rw [anchoredTimes_succ, machine.run_concat]
      unfold anchorSeven
      rw [step_addArchiveRecord, if_pos hSigned]
      refine ⟨?_, ?_, ?_⟩
      · rw [adminOf_anchorArchive, hAdmin]
      · rw [archiveIndex_anchorArchive, if_pos rfl, hIndex, UInt32.ofNat_add]
        rfl
      · intro _
        rw [slotAt_anchorArchive]
        by_cases hSlot : (7 : Nat) = 7 ∧
            0 = archiveIndex (machine.run (anchoredTimes n)) 7
        · rw [if_pos hSlot]
          exact Option.some_ne_none _
        · rw [if_neg hSlot]
          apply hFilled
          rintro rfl
          exact hSlot ⟨rfl, hIndex.symm⟩

/-- After `2 ^ 32` archive records the guard of removals closes again, although
every slot is filled. -/
theorem archive_guard_closes :
    ¬∀ p i, p ++ [i] <+: anchoredTimes UInt32.size ++
        [⟨⟨{0}, 100⟩, .removeCredentials 7 []⟩] → CountersSound p i := by
  intro h
  obtain ⟨hAdmin, hIndex, hFilled⟩ := run_anchoredTimes UInt32.size
  have hSigned : SignedBy (adminOf (machine.run (anchoredTimes UInt32.size)))
      ⟨{0}, 100⟩ := by simp [hAdmin]
  have hZero : archiveIndex (machine.run (anchoredTimes UInt32.size)) 7 = 0 :=
    hIndex.trans (by decide)
  have hSound := h (anchoredTimes UInt32.size) _ (List.prefix_refl _)
  refine hFilled (by decide) (hSound.guarded 7 [] rfl ?_ 0)
  rw [step_removeCredentials, if_pos hSigned, if_pos hZero]

end CredentialStore

namespace SoulboundNft

variable {A M : Type}

/-- The id that an answered call took. -/
def indexTaken : Invocation A (Call A M) × Answer → Option UInt64
  | (⟨_, .mint _ _ _ _⟩, .ok (.badgeId id)) => some id
  | _ => none

/-- All ids are taken from one counter. -/
def counterOf (s : Store A M) (_ : UInt64) : Nat := (badgeCounter s).toNat

/-- A badge is stored under the id. -/
def Present (s : Store A M) (id : UInt64) : Prop := getBadge s id ≠ none

/-- Under the id lies the badge that the call minted. -/
def Holds (s : Store A M) (call : Call A M) (id : UInt64) : Prop :=
  ∃ w m cid time, call = .mint w m cid time ∧
    getBadge s id = some ⟨id, w, m, cid, time⟩

variable [DecidableEq A] [DecidableEq M]

/-- A mint that passes its checks finds the counter below the maximum. -/
def RoomLeft (s : Store A M) (i : Invocation A (Call A M)) : Prop :=
  match i.call with
  | .mint w m _ _ =>
      SignedBy (adminOf s) i.env ∧ hasBadge s w m = false →
        (badgeCounter s).toNat + 1 < UInt64.size
  | _ => True

/-- A mint with room leaves the badge counter larger, any other call leaves it
as it was. -/
theorem counterOf_monotone {s s' : Store A M} {i : Invocation A (Call A M)}
    {answer : Answer} (hStep : Transition s i answer s')
    (hRoom : RoomLeft s i) (id : UInt64) : counterOf s id ≤ counterOf s' id := by
  cases hStep with
  | refused i e => exact Nat.le_refl _
  | initialized env a hAdmin => simp [counterOf]
  | minted env w m cid time hSigned hFresh =>
      have hSucc := uint64_toNat_succ (hRoom ⟨hSigned, hFresh⟩)
      simp [counterOf, hSucc]

/-- An id taken is the next of the counter. -/
theorem indexTaken_next {s s' : Store A M} {i : Invocation A (Call A M)}
    {answer : Answer} (hStep : Transition s i answer s')
    (hRoom : RoomLeft s i) {id : UInt64}
    (hTaken : indexTaken (i, answer) = some id) :
    id.toNat = counterOf s id + 1 ∧ counterOf s' id = counterOf s id + 1 := by
  cases hStep with
  | refused i e =>
      obtain ⟨env, call⟩ := i
      cases call with
      | initializeAdmin a => cases hTaken
      | mint w m cid time => cases hTaken
  | initialized env a hAdmin => cases hTaken
  | minted env w m cid time hSigned hFresh =>
      have hSucc := uint64_toNat_succ (hRoom ⟨hSigned, hFresh⟩)
      cases hTaken
      refine ⟨hSucc, ?_⟩
      simp [counterOf, hSucc]

/-- Only the id taken is written. -/
theorem present_step {s s' : Store A M} {i : Invocation A (Call A M)}
    {answer : Answer} (hStep : Transition s i answer s') {id : UInt64}
    (hPresent : Present s' id) :
    Present s id ∨ indexTaken (i, answer) = some id := by
  cases hStep with
  | refused i e => exact .inl hPresent
  | initialized env a hAdmin => exact .inl hPresent
  | minted env w m cid time hSigned hFresh =>
      simp only [Present, getBadge_issueBadge] at hPresent
      by_cases hId : id = badgeCounter s + 1
      · rw [hId]
        exact .inr rfl
      · rw [if_neg hId] at hPresent
        exact .inl hPresent

/-- The badge of an accepted mint lies under the id it took, with the fields
that the call brought. -/
theorem holds_step {s s' : Store A M} {i : Invocation A (Call A M)}
    {answer : Answer} (hStep : Transition s i answer s') {id : UInt64}
    (hTaken : indexTaken (i, answer) = some id) : Holds s' i.call id := by
  cases hStep with
  | refused i e =>
      obtain ⟨env, call⟩ := i
      cases call with
      | initializeAdmin a => cases hTaken
      | mint w m cid time => cases hTaken
  | initialized env a hAdmin => cases hTaken
  | minted env w m cid time hSigned hFresh =>
      cases hTaken
      refine ⟨w, m, cid, time, rfl, ?_⟩
      rw [getBadge_issueBadge, if_pos rfl]

/-- A call that takes no id of a stored badge leaves all badges as they are.
Below the maximum of the counter no call takes one. -/
theorem getBadge_kept {s s' : Store A M} {i : Invocation A (Call A M)}
    {answer : Answer} (hStep : Transition s i answer s')
    (hVacant : ∀ id, indexTaken (i, answer) = some id → ¬Present s id)
    {id : UInt64} {r : BadgeRecord A M} (hStored : getBadge s id = some r) :
    getBadge s' id = some r := by
  cases hStep with
  | refused i e => exact hStored
  | initialized env a hAdmin => exact hStored
  | minted env w m cid time hSigned hFresh =>
      rw [getBadge_issueBadge, if_neg, hStored]
      rintro rfl
      apply hVacant (badgeCounter s + 1) rfl
      show getBadge s _ ≠ none
      rw [hStored]
      exact Option.some_ne_none r

/-- If the counter grew with a mint, it was below its maximum. -/
theorem roomLeft_of_grows {s : Store A M} {i : Invocation A (Call A M)}
    (hGrows : ∀ id, indexTaken (i, (machine.step s i).1) = some id →
      counterOf s id < counterOf (machine.step s i).2 id) : RoomLeft s i := by
  obtain ⟨env, call⟩ := i
  cases call with
  | initializeAdmin a => trivial
  | mint w m cid time =>
      rintro ⟨hSigned, hFresh⟩
      have hMissing : ¬hasBadge s w m = true :=
        Bool.eq_false_iff.mp hFresh
      rw [step_mint, if_pos hSigned, if_neg hMissing] at hGrows
      have hCounter := hGrows (badgeCounter s + 1) rfl
      simp only [counterOf, badgeCounter_issueBadge] at hCounter
      exact uint64_below_of_lt_succ hCounter

/-- The id a call takes. -/
def takes (s : Store A M) (i : Invocation A (Call A M)) : Option UInt64 :=
  indexTaken (i, (machine.step s i).1)

/-- Badge ids are handed out as an allocator does. -/
theorem allocator : Allocator (machine : Machine (Store A M) _ _) takes
    UInt64.toNat counterOf Present RoomLeft where
  start := by
    intro id
    simp [Present, getBadge, machine, guestMachine]
  next s i _ hRoom hTakes := indexTaken_next (step_transition s i) hRoom hTakes
  monotone s i id hRoom := counterOf_monotone (step_transition s i) hRoom id
  writes s i _ _ hPresent := present_step (step_transition s i) hPresent
  needed _ _ hGrows := roomLeft_of_grows hGrows

/-- What is expected of the call `i` after the run `p`: the id it takes is new
and vacant and the counter grows, its badge then lies under that id, every
badge stored before is still there, and a failing call changes nothing. -/
structure CountersSound (p : List (Invocation A (Call A M)))
    (i : Invocation A (Call A M)) : Prop where
  index : TakesSoundly machine takes counterOf Present p i
  holds : ∀ id, takes (machine.run p) i = some id →
    Holds (machine.step (machine.run p) i).2 i.call id
  kept : ∀ id r, getBadge (machine.run p) id = some r →
    getBadge (machine.step (machine.run p) i).2 id = some r
  unchanged : ∀ e, (machine.step (machine.run p) i).1 = .error e →
    (machine.step (machine.run p) i).2 = machine.run p

/-- The badge counter is sound along a run exactly if every mint that passes
its checks finds it below its maximum. -/
theorem countersSound_iff (is : List (Invocation A (Call A M))) :
    (∀ p i, p ++ [i] <+: is → CountersSound p i) ↔
      machine.Each RoomLeft is := by
  constructor
  · intro h
    exact (allocator.soundly_iff is).mp fun p i hp => (h p i hp).index
  · intro h p i hp
    have hIndex := (allocator.soundly_iff is).mpr h p i hp
    have hStep := step_transition (machine.run p) i
    exact
      { index := hIndex
        holds := fun _ hTakes => holds_step hStep hTakes
        kept := fun _ _ hStored => getBadge_kept hStep hIndex.vacant hStored
        unchanged := failsExactly.atomic _ i }

end SoulboundNft

/-- **Sound counters.**  Along a run every id and slot taken is new and leaves
its counter larger, the record lies under it afterwards, no archive record and
no badge stored before is overwritten, failing calls write nothing and the
archive guard stays open, if and only if every call that passes its checks
finds its counter below the maximum. -/
theorem counters_sound_iff {A S M : Type} [DecidableEq A] [DecidableEq S]
    [DecidableEq M] :
    (∀ is : List (Invocation A (CredentialStore.Call A S)),
      (∀ p i, p ++ [i] <+: is → CredentialStore.CountersSound p i) ↔
        CredentialStore.machine.Each CredentialStore.RoomLeft is) ∧
    (∀ is : List (Invocation A (SoulboundNft.Call A M)),
      (∀ p i, p ++ [i] <+: is → SoulboundNft.CountersSound p i) ↔
        SoulboundNft.machine.Each SoulboundNft.RoomLeft is) :=
  ⟨CredentialStore.countersSound_iff, SoulboundNft.countersSound_iff⟩

end ForgePass.Contracts
