import ForgePass.Contracts.CredentialArchive
import ForgePass.Contracts.CredentialLiveSet

/-!
# Archival cycles

The documented archival of a wallet: choose a batch of live credentials,
anchor its Merkle root, then remove the source ids of the batch, with calls on
other wallets in between.  A cycle is exact when its removal takes the live
set `L` to `L` minus the batch, records identified by their deduplication key.

The removal is keyed by source id alone, the deduplication by signal type and
source id, so a cycle also deletes live records outside the batch that share a
source id with it.  A cycle is exact precisely when it is sealed
(`exact_iff_sealed`), and a documented run loses no record precisely when
every cycle is.
-/

namespace ForgePass.Contracts.CredentialStore

open ForgePass.Verified
open ForgePass.Verified.LogEntry

variable {A S : Type}

/-- The wallet a call is about. -/
def Call.wallet? : Call A S → Option A
  | .initializeAdmin _ => none
  | .addCredential w _ _ _ _ => some w
  | .addArchiveRecord w _ _ _ _ => some w
  | .removeCredentials w _ => some w

/-- One archival cycle: the batch, the arguments of its archive record, and
the calls that arrive before the removal. -/
structure Cycle (A S : Type) where
  batch : List (CredentialRecord A S)
  anchorEnv : Env A
  merkleRoot : BytesN 32
  archivedAt : UInt64
  ipfsCid : HostString
  between : List (Invocation A (Call A S))
  pruneEnv : Env A

/-- The calls of a cycle of `w` up to its removal: the archive record, which
counts the batch, and whatever happens on other wallets meanwhile. -/
def Cycle.anchoring (w : A) (c : Cycle A S) : List (Invocation A (Call A S)) :=
  ⟨c.anchorEnv, .addArchiveRecord w c.merkleRoot (.ofNat c.batch.length)
    c.archivedAt c.ipfsCid⟩ :: c.between

/-- The removal of a cycle of `w`. -/
def Cycle.removal (w : A) (c : Cycle A S) : Invocation A (Call A S) :=
  ⟨c.pruneEnv, .removeCredentials w (c.batch.map CredentialRecord.sourceId)⟩

/-- What happens around a wallet: single calls and whole cycles. A run of
activities is a run of the contract in which the calls of each cycle belong
together. -/
inductive Activity (A S : Type) where
  | call (i : Invocation A (Call A S))
  | cycle (c : Cycle A S)

/-- The calls that make up an activity, those of a cycle in the order of the
documents: archive, what happens meanwhile, remove. -/
def Activity.calls (w : A) : Activity A S → List (Invocation A (Call A S))
  | .call i => [i]
  | .cycle c => c.anchoring w ++ [c.removal w]

/-- The batches of the cycles. -/
def batches (acts : List (Activity A S)) :
    List (List (CredentialRecord A S)) :=
  acts.filterMap fun
    | .call _ => none
    | .cycle c => some c.batch

variable [DecidableEq A]

/-- The call removes credentials of `w`. -/
def Call.prunes (w : A) : Call A S → Prop
  | .removeCredentials v _ => v = w
  | _ => False

/-- The admin archives `w` as documented: batches are live records, both calls
of a cycle carry the admin's authorisation, only calls about other wallets
come between them, and there is no authorised removal outside a cycle. -/
def Documented (w : A) (s : Store A S) : Activity A S → Prop
  | .call i => ¬(i.call.prunes w ∧ SignedBy (adminOf s) i.env)
  | .cycle c => c.batch ⊆ getCredentials s w ∧
      SignedBy (adminOf s) c.anchorEnv ∧ SignedBy (adminOf s) c.pruneEnv ∧
      ∀ i ∈ c.between, i.call.wallet? ≠ some w

/-- No live record outside the batch has a source id of the batch, and the
archive counter does not wrap to 0, unless the batch is empty. -/
def Sealed (w : A) (s : Store A S) : Activity A S → Prop
  | .call _ => True
  | .cycle c =>
      (∀ r ∈ getCredentials s w,
        r.sourceId ∈ c.batch.map CredentialRecord.sourceId → r ∈ c.batch) ∧
      (archiveIndex s w + 1 ≠ 0 ∨ c.batch = [])

variable [DecidableEq S]

/-- The removal of a cycle takes the live set to the live set minus the batch,
by deduplication key. -/
def Exact (w : A) (s : Store A S) : Activity A S → Prop
  | .call _ => True
  | .cycle c =>
      let before := machine.runFrom s (c.anchoring w)
      getCredentials (machine.step before (c.removal w)).2 w =
        dropBy dedupKey (c.batch.map dedupKey) (getCredentials before w)

/-- The store machine, with activities around `w` as inputs. -/
def archival (w : A) :
    Machine (Store A S) (Activity A S) (List (Event A S)) :=
  machine.grouped (Activity.calls w)

/-- Every record accepted for `w` is live or in an archived batch: between the
chain and the archives nothing that was ever accepted is lost. -/
def AllKept (w : A) (acts : List (Activity A S)) : Prop :=
  ∀ r ∈ acceptedRecords w (machine.history (acts.flatMap (Activity.calls w))),
    r ∈ getCredentials ((archival w).run acts) w ∨ ∃ b ∈ batches acts, r ∈ b

/-! ## Deciding the conditions -/

instance (w : A) (call : Call A S) : Decidable (call.prunes w) :=
  match call with
  | .initializeAdmin _ => .isFalse id
  | .addCredential _ _ _ _ _ => .isFalse id
  | .addArchiveRecord _ _ _ _ _ => .isFalse id
  | .removeCredentials v _ => inferInstanceAs (Decidable (v = w))

instance (w : A) (s : Store A S) (a : Activity A S) :
    Decidable (Documented w s a) :=
  match a with
  | .call i =>
      inferInstanceAs (Decidable (¬(i.call.prunes w ∧
        SignedBy (adminOf s) i.env)))
  | .cycle c =>
      inferInstanceAs (Decidable ((∀ r ∈ c.batch, r ∈ getCredentials s w) ∧
        SignedBy (adminOf s) c.anchorEnv ∧ SignedBy (adminOf s) c.pruneEnv ∧
        ∀ i ∈ c.between, i.call.wallet? ≠ some w))

instance (w : A) (s : Store A S) (a : Activity A S) :
    Decidable (Sealed w s a) :=
  match a with
  | .call _ => .isTrue trivial
  | .cycle c =>
      inferInstanceAs (Decidable ((∀ r ∈ getCredentials s w,
        r.sourceId ∈ c.batch.map CredentialRecord.sourceId → r ∈ c.batch) ∧
        (archiveIndex s w + 1 ≠ 0 ∨ c.batch = [])))

instance (w : A) (acts : List (Activity A S)) : Decidable (AllKept w acts) :=
  inferInstanceAs (Decidable (∀ r ∈ acceptedRecords w
    (machine.history (acts.flatMap (Activity.calls w))),
    r ∈ getCredentials ((archival w).run acts) w ∨ ∃ b ∈ batches acts, r ∈ b))

/-! ## Calls about other wallets -/

/-- What calls about other wallets preserve: the live set, the archive index,
and who can sign for the administrator. -/
structure Undisturbed (w : A) (s s' : Store A S) : Prop where
  live : getCredentials s' w = getCredentials s w
  index : archiveIndex s' w = archiveIndex s w
  signed : ∀ env, SignedBy (adminOf s) env → SignedBy (adminOf s') env

omit [DecidableEq S] in
theorem journalEntry_other {w : A} {i : Invocation A (Call A S)}
    (hOther : i.call.wallet? ≠ some w) (answer : Answer) :
    journalEntry w (i, answer) = none := by
  obtain ⟨env, call⟩ := i
  cases answer with
  | error e => exact journalEntry_refused w _ e
  | ok reply =>
      cases call with
      | initializeAdmin a => rfl
      | addArchiveRecord v root count time cid => rfl
      | addCredential v t sid d h =>
          have hv : v ≠ w := fun hEq => hOther (congrArg some hEq)
          cases reply with
          | unit => rfl
          | credentialId id => rw [journalEntry_accepted, if_neg hv]
      | removeCredentials v sids =>
          have hv : v ≠ w := fun hEq => hOther (congrArg some hEq)
          rw [journalEntry_pruned, if_neg hv]

omit [DecidableEq S] in
theorem archiveEntry_other {w : A} {i : Invocation A (Call A S)}
    (hOther : i.call.wallet? ≠ some w) (answer : Answer) :
    archiveEntry w (i, answer) = none := by
  obtain ⟨env, call⟩ := i
  cases answer with
  | error e => exact archiveEntry_refused w _ e
  | ok reply =>
      cases call with
      | initializeAdmin a => rfl
      | addCredential v t sid d h => rfl
      | removeCredentials v sids => rfl
      | addArchiveRecord v root count time cid =>
          have hv : v ≠ w := fun hEq => hOther (congrArg some hEq)
          exact if_neg hv

/-- Who may act as administrator still may after any call. -/
theorem signedBy_step (s : Store A S) (i : Invocation A (Call A S))
    {env : Env A} (h : SignedBy (adminOf s) env) :
    SignedBy (adminOf (machine.step s i).2) env := by
  obtain ⟨a, hAdmin, hAuth⟩ := h
  exact ⟨a, adminGuarded.keeps hAdmin i, hAuth⟩

/-- A call on another wallet leaves records, index and slots of `w` as they
were and journals nothing for it. -/
theorem undisturbed_step {w : A} {i : Invocation A (Call A S)}
    (hOther : i.call.wallet? ≠ some w) (s : Store A S) :
    Undisturbed w s (machine.step s i).2 ∧
      journalEntry w (i, (machine.step s i).1) = none := by
  have hStep := step_transition s i
  have hEntry := journalEntry_other hOther (machine.step s i).1
  have hJournal := journalStep w hStep
  rw [hEntry] at hJournal
  cases hJournal with
  | idle hLive hCounter =>
      rcases archiveEntry_cases w hStep with ⟨r, hArchive, -⟩ | ⟨-, hSame⟩
      · rw [archiveEntry_other hOther] at hArchive
        cases hArchive
      · exact ⟨⟨hLive, hSame.index, fun _ => signedBy_step s i⟩, hEntry⟩

/-- So does any number of them: what happens on other wallets between the steps
of a cycle does not matter to it. -/
theorem undisturbed_runFrom {w : A} {is : List (Invocation A (Call A S))}
    (hOther : ∀ i ∈ is, i.call.wallet? ≠ some w) (s : Store A S) :
    Undisturbed w s (machine.runFrom s is) ∧
      journal w (machine.historyFrom s is) = [] := by
  induction is generalizing s with
  | nil => exact ⟨⟨rfl, rfl, fun _ h => h⟩, rfl⟩
  | cons i is ih =>
      obtain ⟨hFirst, hEntry⟩ :=
        undisturbed_step (hOther i (by simp)) s
      obtain ⟨hRest, hJournal⟩ :=
        ih (fun j hj => hOther j (by simp [hj])) (machine.step s i).2
      refine ⟨⟨hRest.live.trans hFirst.live, hRest.index.trans hFirst.index,
        fun env h => hRest.signed env (hFirst.signed env h)⟩, ?_⟩
      show List.filterMap _ ((i, (machine.step s i).1) :: _) = []
      rw [List.filterMap_cons_none hEntry]
      exact hJournal

/-! ## One cycle -/

/-- The state in which the removal of a cycle runs. -/
structure Anchored (w : A) (c : Cycle A S) (s before : Store A S) : Prop where
  live : getCredentials before w = getCredentials s w
  index : archiveIndex before w = archiveIndex s w + 1
  signed : SignedBy (adminOf before) c.pruneEnv

/-- The anchoring half of a documented cycle writes its archive record and
leaves every live record where it is. -/
theorem anchored_run {w : A} {s : Store A S} {c : Cycle A S}
    (hDoc : Documented w s (.cycle c)) :
    Anchored w c s (machine.runFrom s (c.anchoring w)) ∧
      journal w (machine.historyFrom s (c.anchoring w)) = [] := by
  obtain ⟨-, hAnchor, hPrune, hBetween⟩ := hDoc
  have hStep := step_addArchiveRecord s c.anchorEnv w c.merkleRoot
    (.ofNat c.batch.length) c.archivedAt c.ipfsCid
  rw [if_pos hAnchor] at hStep
  obtain ⟨hRest, hJournal⟩ := undisturbed_runFrom hBetween
    (anchorArchive s w ⟨c.merkleRoot, .ofNat c.batch.length, c.archivedAt,
      c.ipfsCid⟩)
  unfold Cycle.anchoring Machine.runFrom Machine.historyFrom
  rw [hStep]
  refine ⟨⟨?_, ?_, ?_⟩, ?_⟩
  · rw [hRest.live, getCredentials_anchorArchive]
  · rw [hRest.index, archiveIndex_anchorArchive, if_pos rfl]
  · refine hRest.signed _ ?_
    rw [adminOf_anchorArchive]
    exact hPrune
  · exact hJournal

/-- The live set after a cycle. -/
theorem getCredentials_removal {w : A} {c : Cycle A S} {s before : Store A S}
    (h : Anchored w c s before) :
    getCredentials (machine.step before (c.removal w)).2 w =
      if archiveIndex s w + 1 = 0 then getCredentials s w
      else dropBy CredentialRecord.sourceId
        (c.batch.map CredentialRecord.sourceId) (getCredentials s w) := by
  unfold Cycle.removal
  rw [step_removeCredentials, if_pos h.signed, h.index]
  by_cases hWrap : archiveIndex s w + 1 = 0
  · rw [if_pos hWrap, if_pos hWrap]
    exact h.live
  · rw [if_neg hWrap, if_neg hWrap]
    simp [h.live]

/-- A cycle accepts no credential of its wallet. -/
theorem journal_cycle {w : A} {s : Store A S} {c : Cycle A S}
    (hDoc : Documented w s (.cycle c)) :
    inserted (journal w (machine.historyFrom s
      (Activity.calls w (.cycle c)))) = [] := by
  obtain ⟨hAnchored, hJournal⟩ := anchored_run hDoc
  show inserted (journal w (machine.historyFrom s
    (c.anchoring w ++ [c.removal w]))) = []
  rw [machine.historyFrom_append, journal, List.filterMap_append]
  unfold journal at hJournal
  rw [hJournal, List.nil_append]
  unfold Machine.historyFrom Machine.historyFrom Cycle.removal
  rw [step_removeCredentials, if_pos hAnchored.signed]
  by_cases hIndex : archiveIndex (machine.runFrom s (c.anchoring w)) w = 0
  · rw [if_pos hIndex]
    rfl
  · rw [if_neg hIndex]
    simp [journalEntry, inserted, inserted?]

/-- A documented cycle is exact if and only if it is sealed: removal goes by
source id, and the batch by records. -/
theorem exact_iff_sealed {w : A} {s : Store A S} {a : Activity A S}
    (hKeys : ((getCredentials s w).map dedupKey).Nodup)
    (hDoc : Documented w s a) : Exact w s a ↔ Sealed w s a := by
  cases a with
  | call i => exact Iff.rfl
  | cycle c =>
      have hAnchored := (anchored_run hDoc).1
      have hBatch : c.batch ⊆ getCredentials s w := hDoc.1
      simp only [Exact, Sealed, getCredentials_removal hAnchored,
        hAnchored.live]
      by_cases hWrap : archiveIndex s w + 1 = 0
      · -- The counter wrapped: the removal is refused and deletes nothing.
        simp only [hWrap, if_true, ne_eq, not_true_eq_false, false_or]
        constructor
        · intro hEq
          have hNil : c.batch = [] := by
            refine List.eq_nil_iff_forall_not_mem.mpr fun r hr => ?_
            have hLive := hBatch hr
            rw [hEq, mem_dropBy] at hLive
            exact hLive.2 (List.mem_map_of_mem hr)
          exact ⟨by simp [hNil], hNil⟩
        · rintro ⟨-, hNil⟩
          simp [hNil, dropBy]
      · simp only [hWrap, if_false, ne_eq, not_false_eq_true, true_or,
          and_true]
        exact dropBy_tags_eq_iff hKeys hBatch

/-! ## Whole runs -/

/-- A call that is no authorised removal on `w` appends to the live set what
it inserts into the journal. -/
theorem getCredentials_call {w : A} {s s' : Store A S}
    {i : Invocation A (Call A S)} {answer : Answer}
    (hStep : Transition s i answer s') (hDoc : Documented w s (.call i)) :
    getCredentials s' w =
      getCredentials s w ++
        inserted (journalEntry w (i, answer)).toList := by
  have hJournal := journalStep w hStep
  generalize hEntry : journalEntry w (i, answer) = entry at hJournal ⊢
  cases hJournal with
  | idle hLive hCounter =>
      rw [hLive, Option.toList_none, inserted_nil, List.append_nil]
  | inserts r hOwner hFresh hId hLive hCounter => exact hLive
  | prunes sids hLive hCounter =>
      obtain ⟨hCall, hSigned, -⟩ := removal_of_prune hStep hEntry
      have hPrunes : i.call.prunes w := by
        rw [hCall]
        exact rfl
      exact absurd ⟨hPrunes, hSigned⟩ hDoc

/-- The live keys are distinct after every list of activities. -/
theorem dedupKeys_nodup_archival (w : A) (acts : List (Activity A S)) :
    ((getCredentials ((archival w).run acts) w).map dedupKey).Nodup := by
  unfold archival
  rw [Machine.grouped_run]
  exact dedupKeys_nodup w _

/-- The records an activity adds to the accepted ones. -/
theorem acceptedRecords_concat (w : A) (acts : List (Activity A S))
    (a : Activity A S) :
    acceptedRecords w (machine.history
        ((acts ++ [a]).flatMap (Activity.calls w))) =
      acceptedRecords w (machine.history (acts.flatMap (Activity.calls w))) ++
        inserted (journal w
          (machine.historyFrom ((archival w).run acts) (a.calls w))) := by
  unfold archival
  rw [Machine.grouped_run, List.flatMap_append, machine.history_append]
  simp [acceptedRecords, journal, inserted]

/-- What a single call accepts. -/
theorem inserted_call (w : A) (s : Store A S) (i : Invocation A (Call A S)) :
    inserted (journal w (machine.historyFrom s (Activity.calls w (.call i)))) =
      inserted (journalEntry w (i, (machine.step s i).1)).toList := by
  show inserted (List.filterMap _ [(i, (machine.step s i).1)]) = _
  cases hEntry : journalEntry w (i, (machine.step s i).1) with
  | none => simp [hEntry]
  | some e => simp [hEntry]

/-- An exact cycle removes the keys of its batch. -/
theorem getCredentials_exact {w : A} {s : Store A S} {c : Cycle A S}
    (hDoc : Documented w s (.cycle c)) (hExact : Exact w s (.cycle c)) :
    getCredentials ((archival w).step s (.cycle c)).2 w =
      dropBy dedupKey (c.batch.map dedupKey) (getCredentials s w) := by
  show getCredentials (machine.runFrom s
    (c.anchoring w ++ [c.removal w])) w = _
  rw [machine.runFrom_append, ← (anchored_run hDoc).1.live]
  exact hExact

/-- Documented, exact activities keep every accepted record. -/
theorem allKept_concat {w : A} {acts : List (Activity A S)}
    {a : Activity A S} (hDoc : Documented w ((archival w).run acts) a)
    (hExact : Exact w ((archival w).run acts) a) (h : AllKept w acts) :
    AllKept w (acts ++ [a]) := by
  have hKeys := dedupKeys_nodup_archival w acts
  unfold AllKept at h ⊢
  rw [Machine.run_concat, acceptedRecords_concat]
  generalize (archival w).run acts = s at hDoc hExact h hKeys ⊢
  intro r hr
  cases a with
  | call i =>
      have hLive := getCredentials_call (step_transition s i) hDoc
      have hSame : batches (acts ++ [.call i]) = batches acts := by
        simp [batches]
      rw [inserted_call] at hr
      rw [hSame]
      show r ∈ getCredentials (machine.step s i).2 w ∨ _
      rw [hLive, List.mem_append]
      rcases List.mem_append.mp hr with hOld | hNow
      · exact (h r hOld).imp_left .inl
      · exact .inl (.inr hNow)
  | cycle c =>
      rw [journal_cycle hDoc, List.append_nil] at hr
      have hBatches : batches (acts ++ [.cycle c]) =
          batches acts ++ [c.batch] := by
        simp [batches]
      rw [getCredentials_exact hDoc hExact, hBatches]
      rcases h r hr with hLive | ⟨b, hb, hrb⟩
      · by_cases hKey : dedupKey r ∈ c.batch.map dedupKey
        · have hMem := (key_mem_batch_iff hKeys hDoc.1 hLive).mp hKey
          exact .inr ⟨c.batch, by simp, hMem⟩
        · exact .inl (mem_dropBy.mpr ⟨hLive, hKey⟩)
      · exact .inr ⟨b, List.mem_append_left _ hb, hrb⟩

/-- Documented runs through exact cycles keep every accepted record: what a
cycle removes is in its batch. -/
theorem allKept_run {w : A} {acts : List (Activity A S)}
    (hDoc : (archival w).Each (Documented w) acts)
    (hExact : (archival w).Each (Exact w) acts) : AllKept w acts := by
  induction acts using List.reverseRecOn with
  | nil =>
      intro r hr
      cases hr
  | append_singleton acts a ih =>
      rw [Machine.each_concat] at hDoc hExact
      exact allKept_concat hDoc.2 hExact.2 (ih hDoc.1 hExact.1)

/-- **Archival.** In a documented run, every removal is exact and no record is
ever lost if and only if every cycle is sealed: no live record outside its
batch shares a source with one inside, and its archive record does not make the
index wrap. -/
theorem archival_loses_nothing_iff (w : A) (acts : List (Activity A S))
    (hDoc : (archival w).Each (Documented w) acts) :
    ((archival w).Each (Exact w) acts ∧ ∀ p, p <+: acts → AllKept w p) ↔
      (archival w).Each (Sealed w) acts := by
  have hIff (p : List (Activity A S)) (a : Activity A S)
      (h : Documented w ((archival w).run p) a) :=
    exact_iff_sealed (dedupKeys_nodup_archival w p) h
  constructor
  · rintro ⟨hExact, -⟩
    exact (hDoc.and hExact).imp fun p a h => (hIff p a h.1).mp h.2
  · intro hSealed
    have hExact : (archival w).Each (Exact w) acts :=
      (hDoc.and hSealed).imp fun p a h => (hIff p a h.1).mpr h.2
    exact ⟨hExact, fun p hp =>
      allKept_run (hDoc.earlier hp) (hExact.earlier hp)⟩

/-- Two credentials of wallet 7 with one source id and different signal types,
and the cycle that archives the first under administrator 0. -/
def sharedSource (other : HostString) : List (Activity Nat SignalType) :=
  let env : Env Nat := ⟨{0}, 100⟩
  [.call ⟨env, .initializeAdmin 0⟩,
    .call ⟨env, .addCredential 7 .githubPr [1] 10 [0xaa]⟩,
    .call ⟨env, .addCredential 7 .hackathon other 11 [0xbb]⟩,
    .cycle
      { batch := [⟨1, 7, .githubPr, [1], 10, [0xaa]⟩]
        anchorEnv := env
        merkleRoot := Vector.replicate 32 0
        archivedAt := 12
        ipfsCid := [0xcc]
        between := [⟨env, .addCredential 8 .githubPr [1] 12 [0xdd]⟩]
        pruneEnv := env }]

theorem archival_loses_nothing_distinct_sources :
    AllKept 7 (sharedSource [2]) := by
  have hSealed : (archival 7).Each (Sealed 7) (sharedSource [2]) := by decide
  exact ((archival_loses_nothing_iff 7 (sharedSource [2]) (by decide)).mpr
    hSealed).2 _ (List.prefix_refl _)

/-- With a shared source id the cycle deletes the second record, which is in no
batch. -/
theorem archival_loses_shared_source :
    ¬∀ acts : List (Activity Nat SignalType),
      (archival 7).Each (Documented 7) acts →
        (archival 7).Each (Exact 7) acts ∧
          ∀ p, p <+: acts → AllKept 7 p := by
  intro h
  have hKept := (h (sharedSource [1]) (by decide)).2 _ (List.prefix_refl _)
  have hLost : ¬AllKept 7 (sharedSource [1]) := by decide
  exact hLost hKept

end ForgePass.Contracts.CredentialStore
