import ForgePass.Contracts.CredentialReplay
import ForgePass.Verified.SlotLog

/-!
# The archive log is append-only and complete

The archive records of a wallet lie in numbered persistent slots, counted by
`ArchiveIndex` in the other tier, and the reader skips slots it does not find.
`ArchiveLog` ties slots and counter to the accepted `add_archive_record`
calls: exactly the slots below the counter are filled, with those records in
that order, so the reader skips nothing.

The counter is a `u32` and wraps.  What the deletion guard relies on survives
that: once a record was anchored, slot 0 stays filled (`FirstSlot`).
-/

namespace ForgePass.Contracts.CredentialStore

open ForgePass.Verified

variable {A S : Type}

/-- The archive counter of `w` is below its maximum. -/
def ArchiveBelowMax (w : A) (s : Store A S) : Prop :=
  (archiveIndex s w).toNat + 1 < UInt32.size

instance (w : A) : DecidablePred (ArchiveBelowMax (S := S) w) := fun s =>
  inferInstanceAs (Decidable ((archiveIndex s w).toNat + 1 < UInt32.size))

/-! ## Slots and counter -/

/-- Slots below the counter hold `log`, and the counter is its length. So the
reader, which walks up to the counter, returns exactly the log and skips
nothing. -/
structure ArchiveLog (w : A) (s : Store A S) (log : List ArchiveRecord) :
    Prop where
  index : (archiveIndex s w).toNat = log.length
  slots : Logged (archiveAt s w) log

/-- A nonzero counter was set by an anchored record, and an anchored record
fills slot 0 for good. -/
structure FirstSlot (w : A) (s : Store A S) (log : List ArchiveRecord) :
    Prop where
  counted : archiveIndex s w ≠ 0 → log ≠ []
  filled : log ≠ [] → (archiveAt s w 0).isSome

/-- Counter and slots of `w` are the same in both stores. -/
structure SameArchive (w : A) (s s' : Store A S) : Prop where
  index : archiveIndex s' w = archiveIndex s w
  slots : ∀ i, archiveAt s' w i = archiveAt s w i

/-- A call that leaves index and slots of a wallet alone leaves its log alone.
-/
theorem ArchiveLog.frame {w : A} {s s' : Store A S} {log : List ArchiveRecord}
    (h : ArchiveLog w s log) (hSame : SameArchive w s s') :
    ArchiveLog w s' log where
  index := by
    rw [hSame.index]
    exact h.index
  slots := h.slots.congr fun i _ => hSame.slots i

theorem FirstSlot.frame {w : A} {s s' : Store A S} {log : List ArchiveRecord}
    (h : FirstSlot w s log) (hSame : SameArchive w s s') :
    FirstSlot w s' log where
  counted := by
    rw [hSame.index]
    exact h.counted
  filled := by
    rw [hSame.slots]
    exact h.filled

/-- The reader returns the log. -/
theorem ArchiveLog.read {w : A} {s : Store A S} {log : List ArchiveRecord}
    (h : ArchiveLog w s log) : getArchiveRecords s w = log := by
  rw [getArchiveRecords_eq, h.index]
  exact h.slots.read

/-- The reader finds something exactly when the counter is not zero, even
after the counter wrapped. -/
theorem FirstSlot.read_eq_nil_iff {w : A} {s : Store A S}
    {log : List ArchiveRecord} (h : FirstSlot w s log) :
    getArchiveRecords s w = [] ↔ archiveIndex s w = 0 := by
  rw [getArchiveRecords_eq]
  constructor
  · intro hNil
    by_contra hIndex
    have hFilled := h.filled (h.counted hIndex)
    have hPos : (archiveIndex s w).toNat ≠ 0 := fun hZero =>
      hIndex (UInt32.toNat_inj.mp hZero)
    have hMem : 0 ∈ List.range (archiveIndex s w).toNat :=
      List.mem_range.mpr (Nat.pos_of_ne_zero hPos)
    rw [List.filterMap_eq_nil_iff] at hNil
    rw [hNil 0 hMem] at hFilled
    simp at hFilled
  · intro hIndex
    rw [hIndex]
    rfl

/-! ## Anchoring -/

section Anchor

variable [DecidableEq A]

/-- An anchored record goes into the first free slot. This is the step of the
invariant, below the maximum of the index. -/
theorem ArchiveLog.anchor {w : A} {s : Store A S} {log : List ArchiveRecord}
    (h : ArchiveLog w s log) (hBelow : ArchiveBelowMax w s)
    (r : ArchiveRecord) : ArchiveLog w (anchorArchive s w r) (log ++ [r]) where
  index := by
    have hSucc := uint32_toNat_succ hBelow
    simp [hSucc, h.index]
  slots := by
    have hIndex := h.index
    apply h.slots.push
    · intro i hi
      rw [archiveAt_anchorArchive, if_neg]
      rintro ⟨-, hSlot⟩
      -- Slot numbers below the counter do not wrap, so they miss the new one.
      have hLt : i < UInt32.size := by
        unfold ArchiveBelowMax at hBelow
        omega
      rw [← hSlot, UInt32.toNat_ofNat_of_lt' hLt] at hIndex
      omega
    · rw [archiveAt_anchorArchive, if_pos]
      refine ⟨rfl, ?_⟩
      rw [← hIndex, UInt32.ofNat_toNat]

/-- Anchoring fills slot 0, or finds it filled and writes another slot. -/
theorem FirstSlot.anchor {w : A} {s : Store A S} {log : List ArchiveRecord}
    (h : FirstSlot w s log) (r : ArchiveRecord) :
    FirstSlot w (anchorArchive s w r) (log ++ [r]) where
  counted := fun _ => by simp
  filled := by
    intro _
    rw [archiveAt_anchorArchive]
    by_cases hZero : archiveIndex s w = 0
    · simp [hZero]
    · have hFilled := h.filled (h.counted hZero)
      rw [if_neg fun hHit => hZero hHit.2.symm]
      exact hFilled

/-- The archive record a call anchors for wallet `w`, if any: the arguments of
an accepted `add_archive_record`, as they came. -/
def archiveEntry (w : A) : Event A S → Option ArchiveRecord
  | (⟨_, .addArchiveRecord w' root count time cid⟩, .ok _) =>
      if w' = w then some ⟨root, count, time, cid⟩ else none
  | _ => none

/-- The records of the accepted `add_archive_record` calls on `w`, in call
order. -/
def anchoredRecords (w : A) (history : List (Event A S)) :
    List ArchiveRecord := history.filterMap (archiveEntry w)

theorem anchoredRecords_concat (w : A) (history : List (Event A S))
    (e : Event A S) :
    anchoredRecords w (history ++ [e]) =
      anchoredRecords w history ++ (archiveEntry w e).toList :=
  Machine.filterMap_concat _ _ _

theorem archiveEntry_refused (w : A) (i : Invocation A (Call A S))
    (e : Failure ContractError) : archiveEntry w (i, .error e) = none := by
  obtain ⟨env, call⟩ := i
  cases call with
  | initializeAdmin a => rfl
  | addCredential v t sid d h => rfl
  | addArchiveRecord v root count time cid => rfl
  | removeCredentials v sids => rfl

end Anchor

/-! ## Every reachable store -/

variable [DecidableEq A] [DecidableEq S]

/-- A call anchors its record for `w`, or leaves counter and slots of `w`
alone. -/
theorem archiveEntry_cases (w : A) {s s' : Store A S}
    {i : Invocation A (Call A S)} {answer : Answer}
    (hStep : Transition s i answer s') :
    (∃ r, archiveEntry w (i, answer) = some r ∧ s' = anchorArchive s w r) ∨
      (archiveEntry w (i, answer) = none ∧ SameArchive w s s') := by
  cases hStep with
  | refused i e => exact .inr ⟨archiveEntry_refused w i e, rfl, fun _ => rfl⟩
  | initialized env a hAdmin =>
      refine .inr ⟨rfl, archiveIndex_setAdmin s w a, ?_⟩
      intro i
      exact archiveAt_setAdmin s w a i
  | accepted env v t sid d hash hSigned hFresh =>
      refine .inr ⟨rfl, archiveIndex_acceptCredential s w _, ?_⟩
      intro i
      exact archiveAt_acceptCredential s w _ i
  | anchored env v root count time cid hSigned =>
      by_cases hv : v = w
      · subst hv
        exact .inl ⟨⟨root, count, time, cid⟩, if_pos rfl, rfl⟩
      · have hw : w ≠ v := fun hEq => hv hEq.symm
        have hIndex := archiveIndex_anchorArchive s w v
          ⟨root, count, time, cid⟩
        rw [if_neg hw] at hIndex
        refine .inr ⟨if_neg hv, hIndex, ?_⟩
        intro i
        rw [archiveAt_anchorArchive, if_neg fun hHit => hw hHit.1]
  | pruned env v sids hSigned hGuard =>
      refine .inr ⟨rfl, archiveIndex_pruneCredentials s w v sids, ?_⟩
      intro i
      exact archiveAt_pruneCredentials s w v sids i

/-- Slots and counter of `w` hold the accepted records, in every run below the
counter's maximum. -/
theorem archiveLog_run (w : A) {is : List (Invocation A (Call A S))}
    (hBelow : machine.Along (ArchiveBelowMax w) is) :
    ArchiveLog w (machine.run is) (anchoredRecords w (machine.history is)) := by
  refine transition_induction_along
    (R := fun s history => ArchiveLog w s (anchoredRecords w history))
    ⟨rfl, Logged.nil⟩ ?_ hBelow
  intro s history i answer s' hStep hP h
  rw [anchoredRecords_concat]
  rcases archiveEntry_cases w hStep with ⟨r, hEntry, rfl⟩ | ⟨hEntry, hSame⟩
  · rw [hEntry]
    exact h.anchor hP r
  · rw [hEntry, Option.toList_none, List.append_nil]
    exact h.frame hSame

/-- In every run, the counter included that wraps: a counter that is not 0 has
a record to show, and a wrapped one starts over at slot 0, which stays filled.
-/
theorem firstSlot_run (w : A) (is : List (Invocation A (Call A S))) :
    FirstSlot w (machine.run is) (anchoredRecords w (machine.history is)) := by
  refine transition_induction
    (R := fun s history => FirstSlot w s (anchoredRecords w history))
    ⟨fun h => absurd rfl h, fun h => absurd rfl h⟩ ?_ is
  intro s history i answer s' hStep h
  rw [anchoredRecords_concat]
  rcases archiveEntry_cases w hStep with ⟨r, hEntry, rfl⟩ | ⟨hEntry, hSame⟩
  · rw [hEntry]
    exact h.anchor r
  · rw [hEntry, Option.toList_none, List.append_nil]
    exact h.frame hSame

/-- The guard of `remove_credentials` reads the counter; in reachable states
it decides whether the public reader returns anything. -/
theorem removeCredentials_answer (w : A) (sids : List HostString)
    (is : List (Invocation A (Call A S))) {env : Env A}
    (hSigned : SignedBy (adminOf (machine.run is)) env) :
    (removeCredentials w sids env (machine.run is)).1 =
      if getArchiveRecords (machine.run is) w = [] then
        .error (.error .archiveRecordRequired)
      else .ok () := by
  rw [removeCredentials_run, if_pos hSigned]
  by_cases hIndex : archiveIndex (machine.run is) w = 0
  · rw [if_pos hIndex, if_pos ((firstSlot_run w is).read_eq_nil_iff.mpr hIndex)]
  · have hRecords : getArchiveRecords (machine.run is) w ≠ [] := fun hNil =>
      hIndex ((firstSlot_run w is).read_eq_nil_iff.mp hNil)
    rw [if_neg hIndex, if_neg hRecords]

/-- Later runs extend the list of accepted records. -/
theorem anchoredRecords_mono (w : A) {p is : List (Invocation A (Call A S))}
    (hp : p <+: is) :
    anchoredRecords w (machine.history p) <+:
      anchoredRecords w (machine.history is) :=
  (machine.history_mono hp).filterMap _

/-- **Archive log.**  The archive records of `w` are those of the accepted
`add_archive_record` calls on `w`, in call order; their number is the stored
counter, earlier lists are prefixes of later ones, and an authorised removal
passes its guard exactly when the list is not empty. -/
theorem archive_log_complete (w : A) (is : List (Invocation A (Call A S)))
    (hBelow : machine.Along (ArchiveBelowMax w) is) :
    getArchiveRecords (machine.run is) w =
        anchoredRecords w (machine.history is) ∧
      (getArchiveRecords (machine.run is) w).length =
        (archiveIndex (machine.run is) w).toNat ∧
      (∀ p, p <+: is → getArchiveRecords (machine.run p) w <+:
        getArchiveRecords (machine.run is) w) ∧
      (∀ sids env, SignedBy (adminOf (machine.run is)) env →
        (removeCredentials w sids env (machine.run is)).1 =
          if getArchiveRecords (machine.run is) w = [] then
            .error (.error .archiveRecordRequired)
          else .ok ()) := by
  have hRead (p) (hp : p <+: is) : getArchiveRecords (machine.run p) w =
      anchoredRecords w (machine.history p) :=
    (archiveLog_run w (hBelow.earlier hp)).read
  have hAll := hRead is (List.prefix_refl is)
  refine ⟨hAll, ?_, ?_, ?_⟩
  · rw [hAll, (archiveLog_run w hBelow).index]
  · intro p hp
    rw [hRead p hp, hAll]
    exact anchoredRecords_mono w hp
  · intro sids env hSigned
    exact removeCredentials_answer w sids is hSigned

theorem archive_log_complete_sampleRun :
    getArchiveRecords (machine.run sampleRun) 7 =
        [⟨Vector.replicate 32 0, 1, 13, [0xdd]⟩] ∧
      (removeCredentials 7 [] ⟨{0}, 100⟩ (machine.run sampleRun)).1 =
        .ok () := by
  have h := archive_log_complete 7 sampleRun (by decide)
  refine ⟨h.1.trans (by decide), ?_⟩
  rw [h.2.2.2 [] ⟨{0}, 100⟩ (by decide), if_neg (by decide)]

end ForgePass.Contracts.CredentialStore
