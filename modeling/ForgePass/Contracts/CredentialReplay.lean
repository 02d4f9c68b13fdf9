import ForgePass.Contracts.CredentialStoreSpec
import ForgePass.Verified.Counter
import ForgePass.Verified.PrunedLog

/-!
# The live credential set replays the call history

The journal of a wallet keeps, of a whole history, the calls on that wallet
that succeeded and touched its live set: each accepted `add_credential` as the
record it stored, under the id it returned, and each successful
`remove_credentials` as the source ids it named.  The live set is the list of
records in the journal that no later removal names, and the ids in the journal
are `1, 2, 3, …`.
-/

namespace ForgePass.Contracts.CredentialStore

open ForgePass.Verified
open ForgePass.Verified.LogEntry

variable {A S : Type}

/-- A call with its answer. -/
abbrev Event (A S : Type) := Invocation A (Call A S) × Answer

/-- Entries of a wallet's journal: a record came in, or a list of source ids
was removed. -/
abbrev JournalEntry (A S : Type) := LogEntry (CredentialRecord A S) HostString

/-- The counter of `w` is below its maximum. -/
def CounterBelowMax (w : A) (s : Store A S) : Prop :=
  (credentialCounter s w).toNat + 1 < UInt64.size

instance (w : A) : DecidablePred (CounterBelowMax (S := S) w) := fun s =>
  inferInstanceAs (Decidable ((credentialCounter s w).toNat + 1 < UInt64.size))

/-! ## What a journal entry says of one call -/

/-- What a call does to the live set and the counter of `w`, as its journal
entry tells. -/
inductive JournalStep (w : A) (s s' : Store A S) :
    Option (JournalEntry A S) → Prop
  | idle (hLive : getCredentials s' w = getCredentials s w)
      (hCounter : credentialCounter s' w = credentialCounter s w) :
      JournalStep w s s' none
  | inserts (r : CredentialRecord A S) (hOwner : r.wallet = w)
      (hFresh : dedupKey r ∉ (getCredentials s w).map dedupKey)
      (hId : r.id = credentialCounter s w + 1)
      (hLive : getCredentials s' w = getCredentials s w ++ [r])
      (hCounter : credentialCounter s' w = r.id) :
      JournalStep w s s' (some (.insert r))
  | prunes (sids : List HostString)
      (hLive : getCredentials s' w =
        dropBy CredentialRecord.sourceId sids (getCredentials s w))
      (hCounter : credentialCounter s' w = credentialCounter s w) :
      JournalStep w s s' (some (.prune sids))

/-- One call changes the live set as its journal entry says. This is the step
of the replay; the induction is on the history. -/
theorem survivors_step {w : A} {s s' : Store A S}
    {entry : Option (JournalEntry A S)} (hStep : JournalStep w s s' entry)
    {log : List (JournalEntry A S)}
    (h : getCredentials s w = survivors CredentialRecord.sourceId log) :
    getCredentials s' w =
      survivors CredentialRecord.sourceId (log ++ entry.toList) := by
  cases hStep with
  | idle hLive hCounter =>
      rw [hLive, h, Option.toList_none, List.append_nil]
  | inserts r hOwner hFresh hId hLive hCounter =>
      rw [hLive, h, Option.toList_some, survivors_concat_insert]
  | prunes sids hLive hCounter =>
      rw [hLive, h, Option.toList_some, survivors_concat_prune]

/-- The ids of `log` are `1, 2, 3, …` up to the counter of `w`. -/
structure Issued (w : A) (s : Store A S) (log : List (CredentialRecord A S)) :
    Prop where
  counter : (credentialCounter s w).toNat = log.length
  numbered : Numbered (fun r => r.id.toNat) log

/-- One accepted call issues the next number. -/
theorem issued_step {w : A} {s s' : Store A S}
    {entry : Option (JournalEntry A S)} (hStep : JournalStep w s s' entry)
    (hBelow : CounterBelowMax w s) {log : List (JournalEntry A S)}
    (h : Issued w s (inserted log)) :
    Issued w s' (inserted (log ++ entry.toList)) := by
  cases hStep with
  | idle hLive hCounter =>
      rw [Option.toList_none, List.append_nil]
      exact ⟨by rw [hCounter, h.counter], h.numbered⟩
  | inserts r hOwner hFresh hId hLive hCounter =>
      have hNext : r.id.toNat = (inserted log).length + 1 := by
        rw [hId, uint64_toNat_succ hBelow, h.counter]
      rw [Option.toList_some, inserted_concat_insert]
      refine ⟨?_, h.numbered.concat hNext⟩
      rw [hCounter, hNext, List.length_append, List.length_singleton]
  | prunes sids hLive hCounter =>
      rw [Option.toList_some, inserted_concat_prune]
      exact ⟨by rw [hCounter, h.counter], h.numbered⟩

/-! ## The journal of a wallet -/

variable [DecidableEq A]

/-- The journal entry a call leaves for wallet `w`, if any: an accepted record
with the id answered, or the list of a successful removal. Refused calls and
calls on other wallets leave none. -/
def journalEntry (w : A) : Event A S → Option (JournalEntry A S)
  | (⟨_, .addCredential w' t sid d h⟩, .ok (.credentialId id)) =>
      if w' = w then some (.insert ⟨id, w', t, sid, d, h⟩) else none
  | (⟨_, .removeCredentials w' sids⟩, .ok _) =>
      if w' = w then some (.prune sids) else none
  | _ => none

/-- The journal of wallet `w`. -/
def journal (w : A) (history : List (Event A S)) : List (JournalEntry A S) :=
  history.filterMap (journalEntry w)

/-- The records of the accepted `add_credential` calls on `w`, in call order,
each with the id its call returned. -/
def acceptedRecords (w : A) (history : List (Event A S)) :
    List (CredentialRecord A S) := inserted (journal w history)

/-- Those records that no later successful removal names. This is read off
calls and answers alone; no state is looked at. -/
def survivingRecords (w : A) (history : List (Event A S)) :
    List (CredentialRecord A S) :=
  survivors CredentialRecord.sourceId (journal w history)

/-- The journal of a longer history is the old one with at most one entry more.
-/
theorem journal_concat (w : A) (history : List (Event A S)) (e : Event A S) :
    journal w (history ++ [e]) =
      journal w history ++ (journalEntry w e).toList :=
  Machine.filterMap_concat _ _ _

/-- A call that fails is not journalled. -/
theorem journalEntry_refused (w : A) (i : Invocation A (Call A S))
    (e : Failure ContractError) : journalEntry w (i, .error e) = none := by
  obtain ⟨env, call⟩ := i
  cases call with
  | initializeAdmin a => rfl
  | addCredential v t sid d h => rfl
  | addArchiveRecord v root count time cid => rfl
  | removeCredentials v sids => rfl

theorem journalEntry_accepted (w v : A) (env : Env A) (t : S)
    (sid : HostString) (d : UInt64) (h : HostString) (id : UInt64) :
    journalEntry w
        (⟨env, .addCredential v t sid d h⟩, .ok (.credentialId id)) =
      if v = w then some (.insert ⟨id, v, t, sid, d, h⟩) else none := rfl

theorem journalEntry_pruned (w v : A) (env : Env A) (sids : List HostString)
    (reply : Reply) :
    journalEntry w
        ((⟨env, .removeCredentials v sids⟩, .ok reply) : Event A S) =
      if v = w then some (.prune sids) else none := rfl

variable [DecidableEq S]

/-- Every transition is a journal step of every wallet: of the one it is about
by its entry, of all others by none. -/
theorem journalStep (w : A) {s s' : Store A S} {i : Invocation A (Call A S)}
    {answer : Answer} (hStep : Transition s i answer s') :
    JournalStep w s s' (journalEntry w (i, answer)) := by
  cases hStep with
  | refused i e =>
      rw [journalEntry_refused]
      exact .idle rfl rfl
  | initialized env a hAdmin =>
      exact .idle (getCredentials_setAdmin s w a)
        (credentialCounter_setAdmin s w a)
  | accepted env v t sid d h hSigned hFresh =>
      rw [journalEntry_accepted]
      have hLive := getCredentials_acceptCredential s w
        ⟨credentialCounter s v + 1, v, t, sid, d, h⟩
      have hCounter := credentialCounter_acceptCredential s w
        ⟨credentialCounter s v + 1, v, t, sid, d, h⟩
      by_cases hv : v = w
      · subst hv
        rw [if_pos rfl] at hLive hCounter ⊢
        exact .inserts _ rfl hFresh rfl hLive hCounter
      · have hw : w ≠ v := fun hEq => hv hEq.symm
        rw [if_neg hw] at hLive hCounter
        rw [if_neg hv]
        exact .idle hLive hCounter
  | anchored env v root count time cid hSigned =>
      exact .idle (getCredentials_anchorArchive s w v _)
        (credentialCounter_anchorArchive s w v _)
  | pruned env v sids hSigned hGuard =>
      rw [journalEntry_pruned]
      have hLive := getCredentials_pruneCredentials s w v sids
      have hCounter := credentialCounter_pruneCredentials s w v sids
      by_cases hv : v = w
      · subst hv
        rw [if_pos rfl] at hLive ⊢
        exact .prunes sids hLive hCounter
      · have hw : w ≠ v := fun hEq => hv hEq.symm
        rw [if_neg hw] at hLive
        rw [if_neg hv]
        exact .idle hLive hCounter

/-- A prune in the journal of `w` was a removal on `w` that the administrator
authorised and the guard let past. -/
theorem removal_of_prune {w : A} {s s' : Store A S}
    {i : Invocation A (Call A S)} {answer : Answer} {sids : List HostString}
    (hStep : Transition s i answer s')
    (h : journalEntry w (i, answer) = some (.prune sids)) :
    i.call = .removeCredentials w sids ∧ SignedBy (adminOf s) i.env ∧
      archiveIndex s w ≠ 0 := by
  cases hStep with
  | refused i e =>
      rw [journalEntry_refused] at h
      cases h
  | initialized env a hAdmin => cases h
  | accepted env v t sid d hash hSigned hFresh =>
      rw [journalEntry_accepted] at h
      by_cases hv : v = w
      · rw [if_pos hv] at h
        cases h
      · rw [if_neg hv] at h
        cases h
  | anchored env v root count time cid hSigned => cases h
  | pruned env v named hSigned hGuard =>
      rw [journalEntry_pruned] at h
      by_cases hv : v = w
      · subst hv
        rw [if_pos rfl] at h
        cases h
        exact ⟨rfl, hSigned, hGuard⟩
      · rw [if_neg hv] at h
        cases h

/-! ## Whole runs -/

/-- The live set of `w` is what the journal of `w` leaves, in every run: the
last entry decides, since a prune acts on all that came before it. -/
theorem getCredentials_run (w : A) (is : List (Invocation A (Call A S))) :
    getCredentials (machine.run is) w =
      survivingRecords w (machine.history is) := by
  refine transition_induction (R := fun s history =>
    getCredentials s w = survivingRecords w history) rfl ?_ is
  intro s history i answer s' hStep h
  unfold survivingRecords at h ⊢
  rw [journal_concat]
  exact survivors_step (journalStep w hStep) h

/-- The ids issued to `w` are `1, 2, 3, …` up to the counter. -/
theorem issued_run (w : A) {is : List (Invocation A (Call A S))}
    (hBelow : machine.Along (CounterBelowMax w) is) :
    Issued w (machine.run is) (acceptedRecords w (machine.history is)) := by
  refine transition_induction_along
    (R := fun s history => Issued w s (acceptedRecords w history))
    ⟨rfl, Numbered.nil⟩ ?_ hBelow
  intro s history i answer s' hStep hP h
  unfold acceptedRecords at h ⊢
  rw [journal_concat]
  exact issued_step (journalStep w hStep) hP h

/-- **Replay.**  The live set of `w` is the list of accepted `add_credential`
calls on `w`, in call order, without those whose source id a later successful
removal names; the ids are the ordinals of the accepted calls, so none is
issued twice. -/
theorem credentials_replay (w : A) (is : List (Invocation A (Call A S)))
    (hBelow : machine.Along (CounterBelowMax w) is) :
    getCredentials (machine.run is) w =
        survivingRecords w (machine.history is) ∧
      (acceptedRecords w (machine.history is)).map (fun r => r.id.toNat) =
        List.range' 1 (acceptedRecords w (machine.history is)).length ∧
      ((acceptedRecords w (machine.history is)).map (fun r => r.id)).Nodup := by
  have hIssued := issued_run w hBelow
  refine ⟨getCredentials_run w is, hIssued.numbered, ?_⟩
  have hNodup := hIssued.numbered.nodup
  rw [show (fun r : CredentialRecord A S => r.id.toNat) =
    UInt64.toNat ∘ fun r => r.id from rfl, ← List.map_map] at hNodup
  exact List.Nodup.of_map _ hNodup

/-- A short life of wallet 7 under administrator 0: two credentials, a
rejected duplicate, an anchored cycle that removes the first, and one more
credential. -/
def sampleRun : List (Invocation Nat (Call Nat SignalType)) :=
  let env : Env Nat := ⟨{0}, 100⟩
  [⟨env, .initializeAdmin 0⟩,
    ⟨env, .addCredential 7 .githubPr [1] 10 [0xaa]⟩,
    ⟨env, .addCredential 7 .githubPr [1] 11 [0xbb]⟩,
    ⟨env, .addCredential 7 .hackathon [2] 12 [0xcc]⟩,
    ⟨env, .addArchiveRecord 7 (Vector.replicate 32 0) 1 13 [0xdd]⟩,
    ⟨env, .removeCredentials 7 [[1]]⟩,
    ⟨env, .addCredential 7 .scfGrant [3] 14 [0xee]⟩]

theorem credentials_replay_sampleRun :
    getCredentials (machine.run sampleRun) 7 =
        [⟨2, 7, .hackathon, [2], 12, [0xcc]⟩,
          ⟨3, 7, .scfGrant, [3], 14, [0xee]⟩] ∧
      ((acceptedRecords 7 (machine.history sampleRun)).map
        (fun r => r.id)).Nodup := by
  have h := credentials_replay 7 sampleRun (by decide)
  exact ⟨h.1.trans (by decide), h.2.2⟩

end ForgePass.Contracts.CredentialStore
