import ForgePass.Contracts.CredentialReplay
import Mathlib.Data.Set.Card

/-!
# The live set is a keyed set

What a wallet's live vector is for: a set of credentials of one wallet, in
order of issue, in which the pair of signal type and source id is a key.
`LiveSet` carries that as proof fields, with the two operations the contract
performs on it, and every reachable store holds one (`liveSet_run`).

Insertion is guarded by the key and pruning only removes, so uniqueness needs
no assumption on counters.  The order and range of the ids do: they are read
off the replay of the journal.
-/

namespace ForgePass.Contracts.CredentialStore

open ForgePass.Verified
open ForgePass.Verified.LogEntry

variable {A S : Type}

/-- Credentials of wallet `w` without a repeated key, in the order in which
they were added. The fields are the invariant that deduplication keeps. -/
structure LiveSet (A S : Type) (w : A) where
  records : List (CredentialRecord A S)
  owner : ∀ r ∈ records, r.wallet = w
  keys : (records.map dedupKey).Nodup

namespace LiveSet

variable {w : A}

/-- The live set of a wallet without credentials. -/
def empty : LiveSet A S w where
  records := []
  owner := by simp
  keys := by simp

/-- Append a credential of `w` whose key is new. -/
def insert (L : LiveSet A S w) (r : CredentialRecord A S)
    (hOwner : r.wallet = w) (hFresh : dedupKey r ∉ L.records.map dedupKey) :
    LiveSet A S w where
  records := L.records ++ [r]
  owner := by
    intro r' hr'
    rcases List.mem_append.mp hr' with hOld | hNew
    · exact L.owner r' hOld
    · rw [List.mem_singleton] at hNew
      exact hNew ▸ hOwner
  keys := by
    rw [List.map_append, List.map_singleton, ← List.concat_eq_append]
    exact L.keys.concat hFresh

/-- Remove the credentials whose source id is listed. -/
def prune (L : LiveSet A S w) (sids : List HostString) : LiveSet A S w where
  records := dropBy CredentialRecord.sourceId sids L.records
  owner := fun r hr => L.owner r (mem_dropBy.mp hr).1
  keys := L.keys.sublist ((dropBy_sublist _ sids L.records).map dedupKey)

/-- With unique keys, a live set has as many entries as keys. -/
theorem length_records (L : LiveSet A S w) :
    L.records.length = Set.ncard {k | k ∈ L.records.map dedupKey} := by
  classical
  have hCard := List.toFinset_card_of_nodup L.keys
  rw [← List.coe_toFinset, Set.ncard_coe_finset, hCard, List.length_map]

end LiveSet

/-! ## Every reachable store holds a live set -/

/-- One call keeps the live vector of `w` a live set: what it adds has a new
key, and what it removes leaves the keys distinct. -/
theorem liveSet_step {w : A} {s s' : Store A S}
    {entry : Option (JournalEntry A S)} (hStep : JournalStep w s s' entry)
    (h : ∃ L : LiveSet A S w, getCredentials s w = L.records) :
    ∃ L : LiveSet A S w, getCredentials s' w = L.records := by
  obtain ⟨L, hL⟩ := h
  cases hStep with
  | idle hLive hCounter => exact ⟨L, hLive.trans hL⟩
  | inserts r hOwner hFresh hId hLive hCounter =>
      rw [hL] at hFresh hLive
      exact ⟨L.insert r hOwner hFresh, hLive⟩
  | prunes sids hLive hCounter =>
      rw [hL] at hLive
      exact ⟨L.prune sids, hLive⟩

variable [DecidableEq A] [DecidableEq S]

/-- Every reachable live set is a value of `LiveSet`, which carries its
uniqueness: the step lemma is one method of that type for each way to change
it. -/
theorem liveSet_run (w : A) (is : List (Invocation A (Call A S))) :
    ∃ L : LiveSet A S w, getCredentials (machine.run is) w = L.records :=
  machine.invariant ⟨LiveSet.empty, rfl⟩
    (fun s i h => liveSet_step (journalStep w (step_transition s i)) h) is

/-- The keys of a live vector are distinct. -/
theorem dedupKeys_nodup (w : A) (is : List (Invocation A (Call A S))) :
    ((getCredentials (machine.run is) w).map dedupKey).Nodup := by
  obtain ⟨L, hL⟩ := liveSet_run w is
  rw [hL]
  exact L.keys

/-! ## Order and range of the ids -/

/-- The live credentials are some of the accepted ones, in order of issue. -/
theorem live_sublist_accepted (w : A) (is : List (Invocation A (Call A S))) :
    List.Sublist (getCredentials (machine.run is) w)
      (acceptedRecords w (machine.history is)) := by
  rw [getCredentials_run]
  exact survivors_sublist _ _

/-- Live records are listed in the order in which their ids were issued. -/
theorem liveIds_increasing (w : A) {is : List (Invocation A (Call A S))}
    (hBelow : machine.Along (CounterBelowMax w) is) :
    (getCredentials (machine.run is) w).Pairwise fun a b => a.id < b.id := by
  have hAll := (issued_run w hBelow).numbered.increasing
  apply (hAll.sublist (live_sublist_accepted w is)).imp
  intro a b hLt
  exact UInt64.lt_iff_toNat_lt.mpr hLt

/-- Ids of live records were issued: they lie between 1 and the counter. -/
theorem liveIds_range (w : A) {is : List (Invocation A (Call A S))}
    (hBelow : machine.Along (CounterBelowMax w) is)
    {r : CredentialRecord A S} (hr : r ∈ getCredentials (machine.run is) w) :
    1 ≤ r.id ∧ r.id ≤ credentialCounter (machine.run is) w := by
  have hIssued := issued_run w hBelow
  have hRange := hIssued.numbered.range
    ((live_sublist_accepted w is).subset hr)
  have hCounter := hIssued.counter
  simp only [UInt64.le_iff_toNat_le, UInt64.toNat_one]
  omega

/-! ## The duplicated scans -/

/-- The deduplication loop of an authorised `add_credential` rejects exactly
what `credential_exists` reports. -/
theorem addCredential_rejects_iff {s : Store A S} {env : Env A}
    (hSigned : SignedBy (adminOf s) env) (w : A) (t : S) (sid : HostString)
    (d : UInt64) (h : HostString) :
    (addCredential w t sid d h env s).1 =
        .error (.error .credentialAlreadyExists) ↔
      credentialExists s w t sid = true := by
  rw [addCredential_run, if_pos hSigned]
  by_cases hExists : credentialExists s w t sid = true
  · simp [hExists]
  · simp [hExists]

/-- **Deduplication.**  In every reachable state the key is unique in the live
set of `w`, its ids increase within the range issued so far, its records
belong to `w`, and both scans and the count speak of that set of keys. -/
theorem live_set_deduplicated (w : A) (is : List (Invocation A (Call A S)))
    (hBelow : machine.Along (CounterBelowMax w) is) :
    ((getCredentials (machine.run is) w).map dedupKey).Nodup ∧
      (getCredentials (machine.run is) w).Pairwise (fun a b => a.id < b.id) ∧
      (∀ r ∈ getCredentials (machine.run is) w,
        r.wallet = w ∧ 1 ≤ r.id ∧
          r.id ≤ credentialCounter (machine.run is) w) ∧
      (∀ t sid, credentialExists (machine.run is) w t sid = true ↔
        ∃ r ∈ getCredentials (machine.run is) w,
          r.signalType = t ∧ r.sourceId = sid) ∧
      (∀ t sid d h env, SignedBy (adminOf (machine.run is)) env →
        ((addCredential w t sid d h env (machine.run is)).1 =
            .error (.error .credentialAlreadyExists) ↔
          credentialExists (machine.run is) w t sid = true)) ∧
      getCredentialCount (machine.run is) w =
        Set.ncard {k : S × HostString |
          credentialExists (machine.run is) w k.1 k.2 = true} := by
  obtain ⟨L, hL⟩ := liveSet_run w is
  refine ⟨dedupKeys_nodup w is, liveIds_increasing w hBelow, ?_,
    credentialExists_iff _ w, ?_, ?_⟩
  · intro r hr
    exact ⟨L.owner r (hL ▸ hr), liveIds_range w hBelow hr⟩
  · intro t sid d h env hSigned
    exact addCredential_rejects_iff hSigned w t sid d h
  · simp only [credentialExists_iff_mem, Prod.mk.eta]
    rw [getCredentialCount_eq, hL]
    exact L.length_records

theorem live_set_deduplicated_sampleRun :
    credentialExists (machine.run sampleRun) 7 .hackathon [2] = true ∧
      ((addCredential 7 .hackathon [2] 20 [] ⟨{0}, 100⟩
          (machine.run sampleRun)).1 =
        .error (.error .credentialAlreadyExists)) := by
  have h := live_set_deduplicated 7 sampleRun (by decide)
  have hExists : credentialExists (machine.run sampleRun) 7 .hackathon [2] =
      true := by decide
  exact ⟨hExists, (h.2.2.2.2.1 .hackathon [2] 20 [] ⟨{0}, 100⟩
    (by decide)).mpr hExists⟩

end ForgePass.Contracts.CredentialStore
