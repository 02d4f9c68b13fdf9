import ForgePass.Contracts.CounterLimits
import ForgePass.Contracts.CredentialAccount
import ForgePass.Verified.Lap
import ForgePass.Verified.Refinement
import Mathlib.Data.List.ReduceOption

/-!
# What the credential store is for

The contract without its storage: each wallet has a file of claims and of
archives, and nothing leaves it.  A claim is numbered by its place in the file,
modulo 2 ^ 64, and removing it only strikes it out.  What the contract stores
of the claims is those that are not struck out, and of the archives those of
the last lap of their counter.
-/

namespace ForgePass.Contracts.CredentialStore

open ForgePass.Verified
open ForgePass.Verified.Machine

variable {A S : Type}

/-- A credential on file. It has no number of its own, its place in the file is
its number; `struck` says that a removal named its source. -/
structure Claim (S : Type) where
  signalType : S
  sourceId : HostString
  eventDate : UInt64
  dataHash : HostString
  struck : Bool

/-- The credential stored for the claim that stands behind `n` others: nothing
if it is struck out, and else the claim under its place modulo 2 ^ 64. -/
def Claim.entry (n : Nat) (c : Claim S) : Option (Entry S) :=
  if c.struck then none
  else some ⟨.ofNat (n + 1), c.signalType, c.sourceId, c.eventDate, c.dataHash⟩

/-- Strike the claim out if its source id is listed. -/
def Claim.strike (sids : List HostString) (c : Claim S) : Claim S :=
  { c with struck := c.struck || decide (c.sourceId ∈ sids) }

/-- All that was ever put on file for one wallet. Neither list loses an entry:
removals only strike claims out. -/
structure File (S : Type) where
  claims : List (Claim S)
  archives : List ArchiveRecord

namespace File

/-- Nothing was put on file. -/
def blank : File S := ⟨[], []⟩

/-- The credentials that are not struck out, numbered by their places. -/
def live (f : File S) : List (Entry S) :=
  (f.claims.mapIdx Claim.entry).reduceOption

/-- Put one more credential on file. -/
def claim (f : File S) (c : Claim S) : File S :=
  { f with claims := f.claims ++ [c] }

/-- Put one more archive on file. -/
def archive (f : File S) (r : ArchiveRecord) : File S :=
  { f with archives := f.archives ++ [r] }

/-- Strike out the claims whose source ids are listed, and keep them on file.
-/
def strike (f : File S) (sids : List HostString) : File S :=
  { f with claims := f.claims.map (Claim.strike sids) }

theorem archives_claim (f : File S) (c : Claim S) :
    (f.claim c).archives = f.archives := rfl

theorem archives_strike (f : File S) (sids : List HostString) :
    (f.strike sids).archives = f.archives := rfl

theorem claims_archive (f : File S) (r : ArchiveRecord) :
    (f.archive r).claims = f.claims := rfl

theorem live_archive (f : File S) (r : ArchiveRecord) :
    (f.archive r).live = f.live := rfl

theorem length_claims_strike (f : File S) (sids : List HostString) :
    (f.strike sids).claims.length = f.claims.length := List.length_map _

/-- A new claim is live at the end, under the number of its place. -/
theorem live_claim (f : File S) (c : Claim S) :
    (f.claim c).live = f.live ++ (c.entry f.claims.length).toList := by
  unfold live claim
  rw [List.mapIdx_concat, List.reduceOption_append]
  cases c.entry f.claims.length with
  | none => rfl
  | some e => rfl

/-- Striking a claim out removes its entry or leaves it, as pruning the list of
entries does. -/
theorem entry_strike (sids : List HostString) (n : Nat) (c : Claim S) :
    ((c.strike sids).entry n).toList =
      dropBy Entry.sourceId sids (c.entry n).toList := by
  unfold Claim.strike Claim.entry
  cases c.struck with
  | true => rfl
  | false =>
      by_cases hSid : c.sourceId ∈ sids
      · simp [hSid, dropBy]
      · simp [hSid, dropBy]

/-- Striking claims out drops their credentials. -/
theorem live_strike (f : File S) (sids : List HostString) :
    (f.strike sids).live = dropBy Entry.sourceId sids f.live := by
  obtain ⟨claims, archives⟩ := f
  induction claims using List.reverseRecOn with
  | nil => rfl
  | append_singleton claims c ih =>
      have hBefore : (strike ⟨claims ++ [c], archives⟩ sids).live =
          ((strike ⟨claims, archives⟩ sids).claim (c.strike sids)).live := by
        unfold strike claim
        rw [List.map_append]
        rfl
      have hAfter : live ⟨claims ++ [c], archives⟩ =
          live ⟨claims, archives⟩ ++ (c.entry claims.length).toList :=
        live_claim ⟨claims, archives⟩ c
      rw [hBefore, live_claim, ih, hAfter, dropBy_append, ← entry_strike]
      unfold strike
      rw [List.length_map]

end File

/-- The administrator that a call would install. -/
def install (i : Invocation A (Call A S)) : Option A :=
  match i.call with
  | .initializeAdmin a => some a
  | _ => none

variable [DecidableEq A] [DecidableEq S]

/-- What a call does to the files, under the eye of the administrator `a`.  A
new claim is answered its place modulo 2 ^ 64. -/
def operate (a : A) (files : A → File S) (i : Invocation A (Call A S)) :
    Answer × (A → File S) :=
  match i.call with
  | .initializeAdmin _ => (.error (.error .alreadyInitialized), files)
  | .addCredential w t sid d h =>
      if a ∈ i.env.auths then
        if (t, sid) ∈ (files w).live.map Entry.key then
          (.error (.error .credentialAlreadyExists), files)
        else (.ok (.credentialId (.ofNat ((files w).claims.length + 1))),
          Function.update files w ((files w).claim ⟨t, sid, d, h, false⟩))
      else (.error .trap, files)
  | .addArchiveRecord w root count time cid =>
      if a ∈ i.env.auths then
        (.ok .unit, Function.update files w
          ((files w).archive ⟨root, count, time, cid⟩))
      else (.error .trap, files)
  | .removeCredentials w sids =>
      if a ∈ i.env.auths then
        if (files w).archives.length = 0 then
          (.error (.error .archiveRecordRequired), files)
        else (.ok .unit, Function.update files w ((files w).strike sids))
      else (.error .trap, files)

/-- The contract as files: no storage keys, no counters, no tiers. Before the
bootstrap every call is refused as uninitialised. -/
def registry :
    Machine (Deployment A (A → File S)) (Invocation A (Call A S)) Answer :=
  bootstrapped install (.ok .unit) (fun _ => .error (.error .notInitialized))
    (fun _ => .blank) operate

/-- The same under a counter of archives that wraps: whenever their number is
a multiple of its size, the guard of removals takes it for zero. -/
def operateWrapped (a : A) (files : A → File S) (i : Invocation A (Call A S)) :
    Answer × (A → File S) :=
  match i.call with
  | .removeCredentials w sids =>
      if a ∈ i.env.auths then
        if (files w).archives.length % UInt32.size = 0 then
          (.error (.error .archiveRecordRequired), files)
        else (.ok .unit, Function.update files w ((files w).strike sids))
      else (.error .trap, files)
  | _ => operate a files i

/-- The contract as files, under counters that wrap: the guard of removals
takes the number of archives modulo 2 ^ 32. -/
def registryWrapped :
    Machine (Deployment A (A → File S)) (Invocation A (Call A S)) Answer :=
  bootstrapped install (.ok .unit) (fun _ => .error (.error .notInitialized))
    (fun _ => .blank) operateWrapped

/-! ## The contract keeps the files -/

/-- Storage says of the files what it can, in counters that wrap: live
credentials in full, the lengths modulo the width of their counters, and of the
archives those since the index last came back to 0. -/
structure Kept (a : A) (s : Store A S) (files : A → File S) : Prop where
  admin : adminOf s = some a
  credentials : ∀ w, getCredentials s w =
    (files w).live.map (Entry.record · w)
  counter : ∀ w, credentialCounter s w = .ofNat (files w).claims.length
  index : ∀ w, archiveIndex s w = .ofNat (files w).archives.length
  lap : ∀ w, Logged (archiveAt s w)
    (lastLap UInt32.size (files w).archives)

namespace Kept

variable {a : A} {s : Store A S} {files : A → File S}

omit [DecidableEq S] in
/-- Storage after the bootstrap keeps blank files. -/
theorem installed (a : A) : Kept (S := S) a
    ((Ledger.empty : Store A S).setInstance .admin a) fun _ => .blank where
  admin := by simp
  credentials _ := rfl
  counter _ := by
    rw [credentialCounter_setAdmin]
    rfl
  index _ := by
    rw [archiveIndex_setAdmin]
    rfl
  lap _ := .nil

omit [DecidableEq S] in
/-- Accepting a credential keeps the files with one claim more; the claim gets
the number the contract answers, wrapped as its counter is. -/
theorem accept (h : Kept a s files) (w : A) (t : S) (sid : HostString)
    (d : UInt64) (hash : HostString) :
    Kept a (acceptCredential s ⟨credentialCounter s w + 1, w, t, sid, d, hash⟩)
      (Function.update files w ((files w).claim ⟨t, sid, d, hash, false⟩)) where
  admin := by rw [adminOf_acceptCredential, h.admin]
  credentials v := by
    rw [getCredentials_acceptCredential]
    by_cases hv : v = w
    · subst hv
      rw [if_pos rfl, Function.update_self, File.live_claim, List.map_append,
        h.credentials, h.counter, ← UInt64.ofNat_one, ← UInt64.ofNat_add]
      rfl
    · rw [if_neg hv, Function.update_of_ne hv, h.credentials]
  counter v := by
    rw [credentialCounter_acceptCredential]
    by_cases hv : v = w
    · subst hv
      rw [if_pos rfl, Function.update_self, h.counter]
      show _ = UInt64.ofNat ((files v).claims ++ [_]).length
      rw [List.length_append, UInt64.ofNat_add]
      rfl
    · rw [if_neg hv, Function.update_of_ne hv, h.counter]
  index v := by
    rw [archiveIndex_acceptCredential, h.index,
      update_agree File.archives (File.archives_claim (files w) _)]
  lap v := by
    rw [update_agree File.archives (File.archives_claim (files w) _)]
    exact (h.lap v).congr fun i _ => archiveAt_acceptCredential s v _ i

omit [DecidableEq S] in
/-- Anchoring keeps the files with one archive more, also where the index wraps
and the record replaces an earlier one. -/
theorem anchor (h : Kept a s files) (w : A) (r : ArchiveRecord) :
    Kept a (anchorArchive s w r)
      (Function.update files w ((files w).archive r)) where
  admin := by rw [adminOf_anchorArchive, h.admin]
  credentials v := by
    rw [getCredentials_anchorArchive, h.credentials,
      update_agree File.live (File.live_archive (files w) r)]
  counter v := by
    rw [credentialCounter_anchorArchive, h.counter,
      update_agree File.claims (File.claims_archive (files w) r)]
  index v := by
    rw [archiveIndex_anchorArchive]
    by_cases hv : v = w
    · subst hv
      rw [if_pos rfl, Function.update_self, h.index]
      show _ = UInt32.ofNat ((files v).archives ++ [r]).length
      rw [List.length_append, UInt32.ofNat_add]
      rfl
    · rw [if_neg hv, Function.update_of_ne hv, h.index]
  lap v := by
    by_cases hv : v = w
    · subst hv
      rw [Function.update_self]
      apply (h.lap v).lap (by decide)
      · intro i hi
        rw [archiveAt_anchorArchive, if_neg]
        rintro ⟨-, hSlot⟩
        have hNat := congrArg UInt32.toNat hSlot
        rw [h.index, UInt32.toNat_ofNat', UInt32.toNat_ofNat'] at hNat
        have hLt := Nat.mod_lt (files v).archives.length
          (by decide : 0 < UInt32.size)
        rw [Nat.mod_eq_of_lt (Nat.lt_trans hi hLt)] at hNat
        exact absurd hNat (Nat.ne_of_lt hi)
      · rw [archiveAt_anchorArchive, if_pos]
        rw [h.index]
        exact ⟨rfl, UInt32.ofNat_mod_size⟩
    · rw [Function.update_of_ne hv]
      apply (h.lap v).congr
      intro i _
      rw [archiveAt_anchorArchive, if_neg fun hEq => hv hEq.1]

omit [DecidableEq S] in
/-- Removing records from the live set keeps the files with the named claims
struck out. -/
theorem prune (h : Kept a s files) (w : A) (sids : List HostString) :
    Kept a (pruneCredentials s w sids)
      (Function.update files w ((files w).strike sids)) where
  admin := h.admin
  credentials v := by
    rw [getCredentials_pruneCredentials]
    by_cases hv : v = w
    · subst hv
      rw [if_pos rfl, Function.update_self, File.live_strike, h.credentials,
        ← map_dropBy (Entry.record · v) Entry.sourceId
          CredentialRecord.sourceId fun _ => rfl]
    · rw [if_neg hv, Function.update_of_ne hv, h.credentials]
  counter v := by
    have hSame := update_agree (fun f : File S => f.claims.length)
      (File.length_claims_strike (files w) sids) v
    rw [credentialCounter_pruneCredentials, h.counter, hSame]
  index v := by
    rw [archiveIndex_pruneCredentials, h.index,
      update_agree File.archives (File.archives_strike (files w) sids)]
  lap v := by
    rw [update_agree File.archives (File.archives_strike (files w) sids)]
    exact (h.lap v).congr fun i _ => archiveAt_pruneCredentials s v w sids i

end Kept

/-- One call on both sides, whatever the counters: contract and files give the
same answer, and the storage afterwards keeps the files afterwards. -/
theorem step_files {a : A} {s : Store A S} {files : A → File S}
    (h : Kept a s files) (i : Invocation A (Call A S)) :
    Related Eq (Kept a) (machine.step s i) (operateWrapped a files i) := by
  obtain ⟨env, call⟩ := i
  cases call with
  | initializeAdmin b =>
      rw [step_initializeAdmin, h.admin]
      exact ⟨rfl, h⟩
  | addCredential w t sid d hash =>
      have hKeys : (getCredentials s w).map dedupKey =
          (files w).live.map Entry.key := by
        rw [h.credentials, List.map_map]
        rfl
      have hCounter : credentialCounter s w + 1 =
          .ofNat ((files w).claims.length + 1) := by
        rw [h.counter, UInt64.ofNat_add]
        rfl
      rw [step_addCredential, h.admin]
      simp only [signedBy_some, credentialExists_iff_mem, hKeys]
      refine .ite (fun _ => ?_) fun _ => ⟨rfl, h⟩
      refine .ite (fun _ => ⟨rfl, h⟩) fun _ => ⟨?_, h.accept w t sid d hash⟩
      rw [hCounter]
  | addArchiveRecord w root count time cid =>
      rw [step_addArchiveRecord, h.admin]
      simp only [signedBy_some]
      exact .ite (fun _ => ⟨rfl, h.anchor w _⟩) fun _ => ⟨rfl, h⟩
  | removeCredentials w sids =>
      have hGuard : archiveIndex s w = 0 ↔
          (files w).archives.length % UInt32.size = 0 := by
        rw [h.index, ← UInt32.toNat_inj, UInt32.toNat_ofNat']
        rfl
      rw [step_removeCredentials, h.admin]
      simp only [signedBy_some, hGuard]
      refine .ite (fun _ => ?_) fun _ => ⟨rfl, h⟩
      exact .ite (fun _ => ⟨rfl, h⟩) fun _ => ⟨rfl, h.prune w sids⟩

/-- The counter of archives never wrapped: no wallet has as many archives as
the index has values. -/
def Fits (files : A → File S) : Prop :=
  ∀ w, (files w).archives.length < UInt32.size

/-- As long as no wallet has filled its index once, a number of archives is 0
modulo its width only if it is 0. -/
theorem operateWrapped_eq {files : A → File S} (hFits : Fits files) (a : A)
    (i : Invocation A (Call A S)) :
    operateWrapped a files i = operate a files i := by
  obtain ⟨env, call⟩ := i
  cases call with
  | initializeAdmin b => rfl
  | addCredential w t sid d hash => rfl
  | addArchiveRecord w root count time cid => rfl
  | removeCredentials w sids =>
      simp only [operateWrapped, operate, Nat.mod_eq_of_lt (hFits w)]

/-- So the two registers do not differ before that. -/
theorem registryWrapped_step {d : Deployment A (A → File S)}
    (hFits : Fits (d.content fun _ => .blank)) (i : Invocation A (Call A S)) :
    registryWrapped.step d i = registry.step d i := by
  cases d with
  | fresh => rfl
  | installed a files =>
      obtain hFits : Fits files := hFits
      show ((operateWrapped a files i).1, _) = ((operate a files i).1, _)
      rw [operateWrapped_eq hFits]

omit [DecidableEq S] in
theorem Fits.update {files : A → File S} (h : Fits files) {w : A} {f : File S}
    (hf : f.archives.length < UInt32.size) :
    Fits (Function.update files w f) := by
  intro v
  by_cases hv : v = w
  · subst hv
    rw [Function.update_self]
    exact hf
  · rw [Function.update_of_ne hv]
    exact h v

/-- Nothing leaves a file. -/
theorem operate_grows (a : A) (files : A → File S) (i : Invocation A (Call A S))
    (v : A) :
    (files v).claims.length ≤ ((operate a files i).2 v).claims.length ∧
      (files v).archives.length ≤ ((operate a files i).2 v).archives.length := by
  obtain ⟨env, call⟩ := i
  unfold operate
  by_cases hAuth : a ∈ env.auths
  · cases call with
    | initializeAdmin b => exact ⟨Nat.le_refl _, Nat.le_refl _⟩
    | addCredential w t sid d hash =>
        by_cases hHeld : (t, sid) ∈ (files w).live.map Entry.key
        · simp [hAuth, hHeld]
        · by_cases hv : v = w
          · subst hv
            simp [hAuth, hHeld, File.claim]
          · simp [hAuth, hHeld, hv]
    | addArchiveRecord w root count time cid =>
        by_cases hv : v = w
        · subst hv
          simp [hAuth, File.archive]
        · simp [hAuth, hv]
    | removeCredentials w sids =>
        by_cases hNone : (files w).archives = []
        · simp [hAuth, hNone]
        · by_cases hv : v = w
          · subst hv
            simp [hAuth, hNone, File.strike]
          · simp [hAuth, hNone, hv]
  · cases call <;> simp [hAuth]

/-- Files never lose an archive: what fits after a call fitted before it. -/
theorem Fits.of_operate {a : A} {files : A → File S}
    {i : Invocation A (Call A S)} (h : Fits (operate a files i).2) :
    Fits files := fun w =>
  Nat.lt_of_le_of_lt (operate_grows a files i w).2 (h w)

theorem Fits.of_step {d : Deployment A (A → File S)}
    {i : Invocation A (Call A S)}
    (h : Fits ((registry.step d i).2.content fun _ => .blank)) :
    Fits (d.content fun _ => .blank) := by
  cases d with
  | fresh => exact fun _ => (by decide : 0 < UInt32.size)
  | installed a files => exact Fits.of_operate h

/-- A call that finds room in the archive index leaves files that still fit
under it. -/
theorem operate_fits {a : A} {s : Store A S} {files : A → File S}
    (h : Kept a s files) (hFits : Fits files) {i : Invocation A (Call A S)}
    (hRoom : RoomLeft s i) : Fits (operate a files i).2 := by
  obtain ⟨env, call⟩ := i
  unfold operate
  by_cases hAuth : a ∈ env.auths
  · cases call with
    | initializeAdmin b => exact hFits
    | addCredential w t sid d hash =>
        simp only [if_pos hAuth]
        by_cases hHeld : (t, sid) ∈ (files w).live.map Entry.key
        · rw [if_pos hHeld]
          exact hFits
        · rw [if_neg hHeld]
          exact hFits.update (hFits w)
    | addArchiveRecord w root count time cid =>
        have hBelow := hRoom ⟨a, h.admin, hAuth⟩
        rw [h.index, UInt32.toNat_ofNat_of_lt' (hFits w)] at hBelow
        simp only [if_pos hAuth]
        apply hFits.update
        show ((files w).archives ++ [_]).length < UInt32.size
        rw [List.length_append]
        exact hBelow
    | removeCredentials w sids =>
        simp only [if_pos hAuth]
        by_cases hNone : (files w).archives.length = 0
        · rw [if_pos hNone]
          exact hFits
        · rw [if_neg hNone]
          exact hFits.update (hFits w)
  · cases call <;> simp only [if_neg hAuth] <;> exact hFits

/-- Whatever comes before the bootstrap is refused as uninitialised. -/
theorem bootstrap_early {i : Invocation A (Call A S)} (h : install i = none) :
    machine.step machine.init i =
      (.error (.error .notInitialized), machine.init) := by
  obtain ⟨env, call⟩ := i
  cases call with
  | initializeAdmin b => cases h
  | addCredential w t sid d hash =>
      exact step_addCredential _ env w t sid d hash
  | addArchiveRecord w root count time cid =>
      exact step_addArchiveRecord _ env w root count time cid
  | removeCredentials w sids => exact step_removeCredentials _ env w sids

/-- The bootstrap stores the administrator and nothing else. -/
theorem bootstrap_install {i : Invocation A (Call A S)} {a : A}
    (h : install i = some a) :
    machine.step machine.init i =
      (.ok .unit, (Ledger.empty : Store A S).setInstance .admin a) := by
  obtain ⟨env, call⟩ := i
  cases call with
  | initializeAdmin b =>
      obtain rfl : b = a := Option.some.inj h
      rw [step_initializeAdmin]
      rfl
  | addCredential w t sid d hash => cases h
  | addArchiveRecord w root count time cid => cases h
  | removeCredentials w sids => cases h

/-- Whether its counters wrap or not, the contract answers as its files do. -/
theorem refines_registryWrapped :
    Refines machine (registryWrapped (A := A) (S := S)) Any
      (Stands machine.init Kept) := by
  apply Refines.bootstrapped
  · exact fun i => bootstrap_early
  · intro i a h
    rw [bootstrap_install h]
    exact ⟨rfl, .installed a⟩
  · exact fun a s files i _ h => step_files h i

/-- The contract is its files, as long as its counters have room. -/
theorem refines_registry : Refines machine (registry (A := A) (S := S)) RoomLeft
    (Stands machine.init fun a s files => Kept a s files ∧ Fits files) := by
  apply Refines.bootstrapped
  · exact fun i => bootstrap_early
  · intro i a h
    rw [bootstrap_install h]
    exact ⟨rfl, .installed a, fun _ => (by decide : 0 < UInt32.size)⟩
  · rintro a s files i hRoom ⟨h, hFits⟩
    have hStep := step_files h i
    rw [operateWrapped_eq hFits] at hStep
    exact ⟨hStep.answer, hStep.state, operate_fits h hFits hRoom⟩

/-! ## Readers -/

/-- What readers return is read off the files, of whose archives they see a
part. -/
structure Reads (seen : List ArchiveRecord → List ArchiveRecord)
    (s : Store A S) (d : Deployment A (A → File S)) : Prop where
  admin : adminOf s = d.admin?
  credentials : ∀ w, getCredentials s w =
    (d.content (fun _ => .blank) w).live.map (Entry.record · w)
  count : ∀ w, getCredentialCount s w =
    (d.content (fun _ => .blank) w).live.length
  listed : ∀ w t sid, credentialExists s w t sid = true ↔
    (t, sid) ∈ (d.content (fun _ => .blank) w).live.map Entry.key
  archives : ∀ w, getArchiveRecords s w =
    seen (d.content (fun _ => .blank) w).archives

omit [DecidableEq A] in
/-- The other readers follow: the count and the lookup are computed from the
list of live credentials. -/
theorem Reads.of_credentials {seen : List ArchiveRecord → List ArchiveRecord}
    {s : Store A S} {d : Deployment A (A → File S)}
    (hAdmin : adminOf s = d.admin?)
    (hLive : ∀ w, getCredentials s w =
      (d.content (fun _ => .blank) w).live.map (Entry.record · w))
    (hArchives : ∀ w, getArchiveRecords s w =
      seen (d.content (fun _ => .blank) w).archives) : Reads seen s d where
  admin := hAdmin
  credentials := hLive
  count w := by rw [getCredentialCount_eq, hLive, List.length_map]
  listed w t sid := by
    rw [credentialExists_iff_mem, hLive, List.map_map]
    rfl
  archives := hArchives

omit [DecidableEq A] [DecidableEq S] in
/-- The reader of the archives stops at the counter. -/
theorem Kept.getArchiveRecords {a : A} {s : Store A S} {files : A → File S}
    (h : Kept a s files) (w : A) : getArchiveRecords s w =
      lastLap UInt32.size (files w).archives := by
  rw [getArchiveRecords_eq, h.index, UInt32.toNat_ofNat', ← length_lastLap]
  exact (h.lap w).read

/-- Under a counter of archives that wraps, the last lap of them is read. -/
theorem readsWrapped_of_stands {s : Store A S}
    {d : Deployment A (A → File S)} (h : Stands machine.init Kept s d) :
    Reads (lastLap UInt32.size) s d := by
  cases d with
  | fresh =>
      obtain rfl : s = machine.init := h
      exact .of_credentials rfl (fun w => rfl) fun w => rfl
  | installed a files =>
      obtain h : Kept a s files := h
      exact .of_credentials h.admin h.credentials h.getArchiveRecords

omit [DecidableEq A] in
/-- As long as it does not wrap, all are. -/
theorem Reads.of_fits {s : Store A S} {d : Deployment A (A → File S)}
    (h : Reads (lastLap UInt32.size) s d)
    (hFits : Fits (d.content fun _ => .blank)) : Reads id s d := by
  apply Reads.of_credentials h.admin h.credentials
  intro w
  rw [h.archives, lastLap_of_lt (hFits w)]
  rfl

theorem reads_of_stands {s : Store A S} {d : Deployment A (A → File S)}
    (h : Stands machine.init (fun a s files => Kept a s files ∧ Fits files) s
      d) : Reads id s d := by
  cases d with
  | fresh =>
      apply (readsWrapped_of_stands h).of_fits
      exact fun _ => (by decide : 0 < UInt32.size)
  | installed a files =>
      obtain ⟨hKept, hFits⟩ : Kept a s files ∧ Fits files := h
      have hReads := readsWrapped_of_stands (d := .installed a files) hKept
      exact hReads.of_fits hFits

end ForgePass.Contracts.CredentialStore
