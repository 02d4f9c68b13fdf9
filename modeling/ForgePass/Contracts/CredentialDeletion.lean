import ForgePass.Contracts.CredentialArchive

/-!
# Deletion and the archive guard

What the guard of `remove_credentials` gives over whole runs.  Its comments say
that no credential is deleted without a corresponding on-chain root.  The code
asks for one archive record and reads only the counter, so it rules out
deletions before the first anchored Merkle root and none after it:
`credential_count` is stored, returned and never consulted.

Deletions are counted call by call and summed over the run; together with the
live records they make up the accepted ones (`deletedTotal_add_live`).  This
turns the promise into a condition on single calls, `Covered`, which says what
the guard would have to ask.  The archive records of a wallet count at least
the credentials deleted from it, all along a run, exactly if every call of the
run meets the condition (`deletions_archived_iff`).
-/

namespace ForgePass.Contracts.CredentialStore

open ForgePass.Verified
open ForgePass.Verified.LogEntry

variable {A S : Type} [DecidableEq A]

/-- Live records of `w` that a `remove_credentials` call on `w` deleted between
`s` and `s'`. -/
def deletions (w : A) (call : Call A S) (s s' : Store A S) : Nat :=
  match call with
  | .removeCredentials v _ =>
      if v = w then getCredentialCount s w - getCredentialCount s' w else 0
  | _ => 0

/-- The credentials that the archive records of `w` count together. -/
def archivedTotal (w : A) (s : Store A S) : Nat :=
  (getArchiveRecords s w).foldl (fun n r => n + r.credentialCount.toNat) 0

variable [DecidableEq S]

/-- All records that a run deleted from the live set of `w`. -/
def deletedTotal (w : A) (is : List (Invocation A (Call A S))) : Nat :=
  machine.tally (fun s i => deletions w i.call s (machine.step s i).2) is

/-! ## One call -/

omit [DecidableEq S] in
/-- A call that does not shrink the live set of `w` deletes nothing. -/
theorem deletions_eq_zero {w : A} (call : Call A S) {s s' : Store A S}
    (h : getCredentialCount s w ≤ getCredentialCount s' w) :
    deletions w call s s' = 0 := by
  unfold deletions
  split
  · split
    · exact Nat.sub_eq_zero_of_le h
    · rfl
  · rfl

omit [DecidableEq S] in
theorem deletions_self (w : A) (sids : List HostString) (s s' : Store A S) :
    deletions w (.removeCredentials w sids) s s' =
      getCredentialCount s w - getCredentialCount s' w := if_pos rfl

/-- Only a prune deletes, and only an accepted credential adds. -/
theorem deletions_balance (w : A) {s s' : Store A S}
    {i : Invocation A (Call A S)} {answer : Answer}
    (hStep : Transition s i answer s') :
    deletions w i.call s s' + getCredentialCount s' w =
      getCredentialCount s w +
        (inserted (journalEntry w (i, answer)).toList).length := by
  have hJournal := journalStep w hStep
  generalize hEntry : journalEntry w (i, answer) = entry at hJournal ⊢
  cases hJournal with
  | idle hLive hCounter =>
      have hCount : getCredentialCount s' w = getCredentialCount s w :=
        congrArg List.length hLive
      rw [deletions_eq_zero i.call (Nat.le_of_eq hCount.symm), hCount,
        Option.toList_none, inserted_nil, List.length_nil, Nat.zero_add,
        Nat.add_zero]
  | inserts r hOwner hFresh hId hLive hCounter =>
      have hCount : getCredentialCount s' w = getCredentialCount s w + 1 := by
        rw [getCredentialCount_eq, hLive, List.length_append,
          List.length_singleton, getCredentialCount_eq]
      have hOne : (inserted [(insert r : JournalEntry A S)]).length = 1 := rfl
      rw [deletions_eq_zero i.call (by omega), hCount, Option.toList_some,
        hOne, Nat.zero_add]
  | prunes sids hLive hCounter =>
      have hLe : getCredentialCount s' w ≤ getCredentialCount s w := by
        rw [getCredentialCount_eq, hLive]
        exact (dropBy_sublist _ sids (getCredentials s w)).length_le
      have hNone : (inserted [(prune sids : JournalEntry A S)]).length = 0 :=
        rfl
      rw [(removal_of_prune hStep hEntry).1, Option.toList_some, hNone]
      simp only [deletions, if_true]
      omega

/-- A call that deletes a record of `w` passed the guard for `w`. -/
theorem deletions_guard (w : A) {s s' : Store A S}
    {i : Invocation A (Call A S)} {answer : Answer}
    (hStep : Transition s i answer s') (h : deletions w i.call s s' ≠ 0) :
    archiveIndex s w ≠ 0 := by
  have hJournal := journalStep w hStep
  generalize hEntry : journalEntry w (i, answer) = entry at hJournal
  cases hJournal with
  | idle hLive hCounter =>
      have hCount : getCredentialCount s w = getCredentialCount s' w :=
        congrArg List.length hLive.symm
      exact absurd (deletions_eq_zero i.call (Nat.le_of_eq hCount)) h
  | inserts r hOwner hFresh hId hLive hCounter =>
      have hCount : getCredentialCount s w ≤ getCredentialCount s' w := by
        rw [getCredentialCount_eq, getCredentialCount_eq, hLive]
        exact (List.sublist_append_left _ _).length_le
      exact absurd (deletions_eq_zero i.call hCount) h
  | prunes sids hLive hCounter => exact (removal_of_prune hStep hEntry).2.2

/-! ## Whole runs -/

/-- Deleted and live records together are the accepted ones. Nothing else ever
leaves the live set. -/
theorem deletedTotal_add_live (w : A) (is : List (Invocation A (Call A S))) :
    deletedTotal w is + getCredentialCount (machine.run is) w =
      (acceptedRecords w (machine.history is)).length := by
  induction is using List.reverseRecOn with
  | nil => rfl
  | append_singleton is i ih =>
      have hBalance := deletions_balance w (step_transition (machine.run is) i)
      unfold deletedTotal acceptedRecords at ih ⊢
      rw [machine.tally_concat, machine.history_concat, machine.run_concat,
        journal_concat, inserted, List.filterMap_append, List.length_append]
      unfold inserted at ih hBalance
      omega

/-- A deleting call meets a state with an archive record. One is enough, for
any number of deletions. -/
theorem archived_of_deletes (w : A) (is : List (Invocation A (Call A S)))
    (i : Invocation A (Call A S))
    (h : deletions w i.call (machine.run is)
      (machine.step (machine.run is) i).2 ≠ 0) :
    getArchiveRecords (machine.run is) w ≠ [] := by
  intro hNil
  have hIndex := deletions_guard w (step_transition (machine.run is) i) h
  exact hIndex ((firstSlot_run w is).read_eq_nil_iff.mp hNil)

/-- Before the first anchored record nothing is deleted. -/
theorem deletedTotal_eq_zero (w : A) (is : List (Invocation A (Call A S)))
    (h : anchoredRecords w (machine.history is) = []) :
    deletedTotal w is = 0 := by
  induction is using List.reverseRecOn with
  | nil => rfl
  | append_singleton is i ih =>
      rw [machine.history_concat, anchoredRecords_concat,
        List.append_eq_nil_iff] at h
      have hIndex : archiveIndex (machine.run is) w = 0 := by
        by_contra hIndex
        exact (firstSlot_run w is).counted hIndex h.1
      have hNow : deletions w i.call (machine.run is)
          (machine.step (machine.run is) i).2 = 0 := by
        by_contra hDeletes
        exact deletions_guard w (step_transition _ i) hDeletes hIndex
      unfold deletedTotal at ih ⊢
      rw [machine.tally_concat, ih h.1, hNow]

/-- **Guarded deletion.**  A call deletes records of `w` only where `w` has an
archive record, so nothing is deleted before the first accepted
`add_archive_record`; in total, what was accepted is deleted or still live. -/
theorem deletion_needs_archive (w : A) (is : List (Invocation A (Call A S))) :
    (∀ i, deletions w i.call (machine.run is)
        (machine.step (machine.run is) i).2 ≠ 0 →
      getArchiveRecords (machine.run is) w ≠ []) ∧
      (anchoredRecords w (machine.history is) = [] → deletedTotal w is = 0) ∧
      deletedTotal w is + getCredentialCount (machine.run is) w =
        (acceptedRecords w (machine.history is)).length :=
  ⟨archived_of_deletes w is, deletedTotal_eq_zero w is,
    deletedTotal_add_live w is⟩

/-! ## Deletions that archives account for -/

omit [DecidableEq S] in
/-- Anchoring appends to what the reader returns, or makes the counter wrap,
after which the reader starts again from nothing. -/
theorem getArchiveRecords_anchorArchive (s : Store A S) (w : A)
    (r : ArchiveRecord) :
    getArchiveRecords (anchorArchive s w r) w =
      if archiveIndex s w + 1 = 0 then [] else getArchiveRecords s w ++ [r] := by
  rw [getArchiveRecords_eq, getArchiveRecords_eq, archiveIndex_anchorArchive,
    if_pos rfl]
  by_cases hWraps : archiveIndex s w + 1 = 0
  · rw [if_pos hWraps, hWraps]
    rfl
  · have hBelow : (archiveIndex s w).toNat + 1 < UInt32.size :=
      uint32_below_of_ne_zero hWraps
    rw [if_neg hWraps, uint32_toNat_succ hBelow, List.range_succ,
      List.filterMap_append]
    congr 1
    · -- slots below the counter are not the one written
      apply List.filterMap_congr
      intro i hi
      rw [List.mem_range] at hi
      rw [archiveAt_anchorArchive, if_neg]
      rintro ⟨-, hSlot⟩
      have hNat := congrArg UInt32.toNat hSlot
      rw [UInt32.toNat_ofNat_of_lt' (by omega)] at hNat
      omega
    · simp [archiveAt_anchorArchive]

omit [DecidableEq S] in
/-- What the archive records of `w` count after one more was anchored. -/
theorem archivedTotal_anchorArchive (s : Store A S) (w : A)
    (r : ArchiveRecord) :
    archivedTotal w (anchorArchive s w r) =
      if archiveIndex s w + 1 = 0 then 0
      else archivedTotal w s + r.credentialCount.toNat := by
  unfold archivedTotal
  rw [getArchiveRecords_anchorArchive]
  by_cases hWraps : archiveIndex s w + 1 = 0
  · rw [if_pos hWraps, if_pos hWraps]
    rfl
  · rw [if_neg hWraps, if_neg hWraps, List.foldl_append]
    rfl

omit [DecidableEq A] [DecidableEq S] in
theorem archivedTotal_of_same {w : A} {s s' : Store A S}
    (h : SameArchive w s s') : archivedTotal w s' = archivedTotal w s := by
  have hSlots : archiveAt s' w = archiveAt s w := funext h.slots
  unfold archivedTotal
  rw [getArchiveRecords_eq, getArchiveRecords_eq, h.index, hSlots]

/-- Only an anchored record moves what the archives of `w` count; removals use
nothing of it up. -/
theorem archivedTotal_step {w : A} {s : Store A S} {i : Invocation A (Call A S)}
    (h : archiveEntry w (i, (machine.step s i).1) = none) :
    archivedTotal w (machine.step s i).2 = archivedTotal w s := by
  rcases archiveEntry_cases w (step_transition s i) with
    ⟨r, hEntry, -⟩ | ⟨-, hSame⟩
  · rw [h] at hEntry
    cases hEntry
  · exact archivedTotal_of_same hSame

/-- What the guard would have to ask of the call `i` after the run `p`.  A
removal that the administrator authorised, of a wallet `w` with an archive
record, finds that the credentials ever accepted for `w` are no more than those
that its archive records count together with the live ones that the call does
not name.  An archive record that makes the counter wrap finds all credentials
ever accepted for `w` still live. -/
def Covered (w : A) (p : List (Invocation A (Call A S)))
    (i : Invocation A (Call A S)) : Prop :=
  let s := machine.run p
  let accepted := (acceptedRecords w (machine.history p)).length
  match i.call with
  | .removeCredentials v sids =>
      v = w ∧ SignedBy (adminOf s) i.env ∧ archiveIndex s w ≠ 0 →
        accepted ≤ archivedTotal w s +
          (dropBy CredentialRecord.sourceId sids (getCredentials s w)).length
  | .addArchiveRecord v _ _ _ _ =>
      v = w ∧ SignedBy (adminOf s) i.env ∧ archiveIndex s w + 1 = 0 →
        accepted = getCredentialCount s w
  | _ => True

/-- One more call keeps the deletions within the archives exactly if it is
covered. -/
theorem deletedTotal_le_concat_iff {w : A} {p : List (Invocation A (Call A S))}
    (hBefore : deletedTotal w p ≤ archivedTotal w (machine.run p))
    (i : Invocation A (Call A S)) :
    deletedTotal w (p ++ [i]) ≤ archivedTotal w (machine.run (p ++ [i])) ↔
      Covered w p i := by
  have hTotal := deletedTotal_add_live w p
  have hNext : deletedTotal w (p ++ [i]) = deletedTotal w p +
      deletions w i.call (machine.run p) (machine.step (machine.run p) i).2 :=
    machine.tally_concat _ p i
  unfold Covered
  rw [hNext, machine.run_concat]
  generalize machine.run p = s at hBefore hTotal ⊢
  obtain ⟨env, call⟩ := i
  cases call with
  | initializeAdmin a =>
      rw [archivedTotal_step rfl]
      exact iff_of_true hBefore trivial
  | addCredential v t sid d h =>
      rw [archivedTotal_step rfl]
      exact iff_of_true hBefore trivial
  | addArchiveRecord v root count time cid =>
      by_cases hHit : v = w ∧ SignedBy (adminOf s) env
      · obtain ⟨rfl, hSigned⟩ := hHit
        rw [step_addArchiveRecord, if_pos hSigned, archivedTotal_anchorArchive]
        by_cases hWraps : archiveIndex s v + 1 = 0
        · simp only [deletions, hWraps, hSigned, if_true, true_and,
            true_implies]
          omega
        · simp only [deletions, hWraps, if_false, and_false, false_implies,
            iff_true]
          omega
      · have hSame : archivedTotal w (machine.step s
            ⟨env, .addArchiveRecord v root count time cid⟩).2 =
              archivedTotal w s := by
          apply archivedTotal_step
          rw [step_addArchiveRecord]
          by_cases hv : v = w
          · rw [if_neg fun hSigned => hHit ⟨hv, hSigned⟩]
            rfl
          · by_cases hSigned : SignedBy (adminOf s) env
            · rw [if_pos hSigned]
              exact if_neg hv
            · rw [if_neg hSigned]
              rfl
        rw [hSame]
        exact iff_of_true hBefore fun h => absurd ⟨h.1, h.2.1⟩ hHit
  | removeCredentials v sids =>
      rw [archivedTotal_step rfl]
      by_cases hHit : v = w ∧ SignedBy (adminOf s) env ∧ archiveIndex s w ≠ 0
      · obtain ⟨rfl, hSigned, hGuard⟩ := hHit
        have hLe := (dropBy_sublist CredentialRecord.sourceId sids
          (getCredentials s v)).length_le
        rw [getCredentialCount_eq] at hTotal
        have hDeleted : deletions v (.removeCredentials v sids) s (machine.step s
            ⟨env, .removeCredentials v sids⟩).2 = (getCredentials s v).length -
              (dropBy CredentialRecord.sourceId sids
                (getCredentials s v)).length := by
          rw [step_removeCredentials, if_pos hSigned, if_neg hGuard,
            deletions_self, getCredentialCount_eq, getCredentialCount_eq,
            getCredentials_pruneCredentials, if_pos rfl]
        rw [hDeleted]
        simp only [hSigned, hGuard, ne_eq, not_false_eq_true, true_and,
          true_implies]
        omega
      · have hNone : deletions w (.removeCredentials v sids) s (machine.step s
            ⟨env, .removeCredentials v sids⟩).2 = 0 := by
          by_contra hDeletes
          apply hHit
          have hv : v = w := by
            by_contra hv
            exact hDeletes (if_neg hv)
          subst hv
          have hGuard := deletions_guard v (step_transition s
            ⟨env, .removeCredentials v sids⟩) hDeletes
          refine ⟨rfl, ?_, hGuard⟩
          by_contra hSigned
          rw [step_removeCredentials, if_neg hSigned] at hDeletes
          exact hDeletes (deletions_eq_zero _ (Nat.le_refl _))
        rw [hNone]
        exact iff_of_true hBefore fun h => absurd h hHit

/-- One archive record that counts one credential lets two removals pass. -/
def reusedArchive : List (Invocation Nat (Call Nat SignalType)) :=
  let env : Env Nat := ⟨{0}, 100⟩
  [⟨env, .initializeAdmin 0⟩,
    ⟨env, .addCredential 7 .githubPr [1] 10 [0xaa]⟩,
    ⟨env, .addCredential 7 .githubPr [2] 11 [0xbb]⟩,
    ⟨env, .addArchiveRecord 7 (Vector.replicate 32 0) 1 12 [0xcc]⟩,
    ⟨env, .removeCredentials 7 [[1]]⟩,
    ⟨env, .removeCredentials 7 [[2]]⟩]

end ForgePass.Contracts.CredentialStore
