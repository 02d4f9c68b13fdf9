import ForgePass.Contracts.CredentialStoreSpec
import ForgePass.Verified.Counter

/-!
# What the credential store keeps of one wallet

An `Account` is what the contract is for, seen from one wallet: the archives
anchored so far, how many credentials were issued, and which of them are live.
Its fields say what cannot be otherwise: live ids increase among the issued
ones, no two live credentials share their key, and without an archive nothing
was ever removed.

Three operations move an account.  `Grows` is what they can do together: to
forget live credentials by source id, to issue new ones, to anchor archives.
It is an order, and every operation moves along it.
-/

namespace ForgePass.Contracts.CredentialStore

open ForgePass.Verified

variable {A S : Type}

/-- The wallet a call is about. -/
def subject : Call A S → A
  | .initializeAdmin a => a
  | .addCredential w _ _ _ _ => w
  | .addArchiveRecord w _ _ _ _ => w
  | .removeCredentials w _ => w

/-- A credential of an account; the wallet is that of the account. -/
structure Entry (S : Type) where
  id : UInt64
  signalType : S
  sourceId : HostString
  eventDate : UInt64
  dataHash : HostString

/-- The stored form of an entry. -/
def Entry.record (e : Entry S) (w : A) : CredentialRecord A S :=
  ⟨e.id, w, e.signalType, e.sourceId, e.eventDate, e.dataHash⟩

/-- The key that live credentials do not share. -/
def Entry.key (e : Entry S) : S × HostString := (e.signalType, e.sourceId)

/-- Credentials are numbered as they are issued. -/
def Entry.number (e : Entry S) : Nat := e.id.toNat

/-- The account of one wallet: its archives, the number of credentials ever
issued to it, and those that are live.

The fields that follow are what every sequence of calls leaves behind. Live
numbers increase and were issued; keys are distinct; nothing is removed before
the first archive. The last two say when the vector of live credentials exists:
removals write it even where there is nothing to remove. -/
@[ext] structure Account (S : Type) where
  archives : List ArchiveRecord
  issued : Nat
  live : List (Entry S)
  /-- The vector of live credentials was written, if only as an empty one. -/
  opened : Bool
  archivesFit : archives.length < UInt32.size
  issuedFits : issued < UInt64.size
  increasing : Increasing Entry.number live
  positive : ∀ e ∈ live, 0 < e.number
  range : ∀ e ∈ live, e.number ≤ issued
  distinct : (live.map Entry.key).Nodup
  unpruned : archives = [] → live.length = issued
  closed : opened = false → issued = 0
  untouched : opened = true → issued = 0 → archives ≠ []

namespace Account

/-- Nothing was ever added for the wallet. -/
def blank : Account S where
  archives := []
  issued := 0
  live := []
  opened := false
  archivesFit := by decide
  issuedFits := by decide
  increasing := List.Pairwise.nil
  positive := by simp
  range := by simp
  distinct := List.nodup_nil
  unpruned := by simp
  closed := by simp
  untouched := by simp

/-- Nothing is live before something was issued. -/
theorem live_eq_nil (x : Account S) (h : x.issued = 0) : x.live = [] := by
  rw [List.eq_nil_iff_forall_not_mem]
  intro e he
  have hLow := x.positive e he
  have hHigh := x.range e he
  omega

/-! ## Stored form -/

/-- The stored counter, absent before the first credential. -/
def counterEntry (x : Account S) : Option UInt64 :=
  if x.issued = 0 then none else some (.ofNat x.issued)

/-- The stored number of archives, absent before the first. -/
def indexEntry (x : Account S) : Option UInt32 :=
  if x.archives.length = 0 then none else some (.ofNat x.archives.length)

/-- The stored vector of live credentials. -/
def credentialsEntry (w : A) (x : Account S) :
    Option (List (CredentialRecord A S)) :=
  if x.opened then some (x.live.map (Entry.record · w)) else none

/-- The archive stored in a slot. -/
def slotEntry (i : UInt32) (x : Account S) : Option ArchiveRecord :=
  x.archives[i.toNat]?

/-- The entry of the id counter, read with its default, is the number of
credentials issued. -/
theorem counterEntry_getD (x : Account S) :
    x.counterEntry.getD 0 = .ofNat x.issued := by
  unfold counterEntry
  by_cases hZero : x.issued = 0
  · rw [if_pos hZero, hZero]
    rfl
  · rw [if_neg hZero]
    rfl

/-- The entry of the archive index, read with its default, is the number of
archives. -/
theorem indexEntry_getD (x : Account S) :
    x.indexEntry.getD 0 = .ofNat x.archives.length := by
  unfold indexEntry
  by_cases hZero : x.archives.length = 0
  · rw [if_pos hZero, hZero]
    rfl
  · rw [if_neg hZero]
    rfl

theorem credentialsEntry_getD (w : A) (x : Account S) :
    (x.credentialsEntry w).getD [] = x.live.map (Entry.record · w) := by
  unfold credentialsEntry
  cases hOpened : x.opened with
  | true => rfl
  | false =>
      rw [x.live_eq_nil (x.closed hOpened)]
      rfl

theorem issued_toNat (x : Account S) :
    (UInt64.ofNat x.issued).toNat = x.issued :=
  UInt64.toNat_ofNat_of_lt' x.issuedFits

theorem archives_toNat (x : Account S) :
    (UInt32.ofNat x.archives.length).toNat = x.archives.length :=
  UInt32.toNat_ofNat_of_lt' x.archivesFit

/-! ## Operations -/

/-- Issue the next credential, under a key that is not live. -/
def accept (x : Account S) (e : Entry S) (hNext : e.number = x.issued + 1)
    (hFresh : e.key ∉ x.live.map Entry.key) : Account S where
  archives := x.archives
  issued := x.issued + 1
  live := x.live ++ [e]
  opened := true
  archivesFit := x.archivesFit
  issuedFits := by
    rw [← hNext]
    exact e.id.toNat_lt_size
  increasing := by
    apply x.increasing.concat
    intro b hb
    have hRange := x.range b hb
    omega
  positive := by
    intro b hb
    rcases List.mem_append.mp hb with hOld | hNew
    · exact x.positive b hOld
    · rw [List.mem_singleton] at hNew
      rw [hNew, hNext]
      exact Nat.succ_pos _
  range := by
    intro b hb
    rcases List.mem_append.mp hb with hOld | hNew
    · exact Nat.le_succ_of_le (x.range b hOld)
    · rw [List.mem_singleton] at hNew
      rw [hNew, hNext]
  distinct := by
    rw [List.map_append, List.map_singleton, ← List.concat_eq_append]
    exact x.distinct.concat hFresh
  unpruned := by
    intro hNone
    rw [List.length_append, x.unpruned hNone, List.length_singleton]
  closed := by simp
  untouched := by simp

/-- Anchor one more archive. -/
def anchor (x : Account S) (r : ArchiveRecord)
    (hFits : x.archives.length + 1 < UInt32.size) : Account S where
  archives := x.archives ++ [r]
  issued := x.issued
  live := x.live
  opened := x.opened
  archivesFit := by
    rw [List.length_append]
    exact hFits
  issuedFits := x.issuedFits
  increasing := x.increasing
  positive := x.positive
  range := x.range
  distinct := x.distinct
  unpruned := by simp
  closed := x.closed
  untouched := by simp

/-- Forget the live credentials with a listed source id. -/
def prune (x : Account S) (sids : List HostString) (hSome : x.archives ≠ []) :
    Account S where
  archives := x.archives
  issued := x.issued
  live := dropBy Entry.sourceId sids x.live
  opened := true
  archivesFit := x.archivesFit
  issuedFits := x.issuedFits
  increasing := x.increasing.sublist (dropBy_sublist _ sids x.live)
  positive := fun e he => x.positive e (mem_dropBy.mp he).1
  range := fun e he => x.range e (mem_dropBy.mp he).1
  distinct := x.distinct.sublist ((dropBy_sublist _ sids x.live).map Entry.key)
  unpruned := fun hNone => absurd hNone hSome
  closed := by simp
  untouched := fun _ _ => hSome

/-! ## Growth -/

/-- How an account can change: archives are added at the end, live credentials
are forgotten by source id, and credentials are issued under later numbers. -/
structure Grows (x y : Account S) : Prop where
  archives : x.archives <+: y.archives
  issued : x.issued ≤ y.issued
  opened : x.opened = true → y.opened = true
  live : ∃ sids added, y.live = dropBy Entry.sourceId sids x.live ++ added ∧
    ∀ e ∈ added, x.issued < e.number

namespace Grows

/-- All live credentials stay. -/
theorem of_append {x y : Account S} (hArchives : x.archives <+: y.archives)
    (hIssued : x.issued ≤ y.issued) (hOpened : x.opened = true → y.opened = true)
    {added : List (Entry S)} (hLive : y.live = x.live ++ added)
    (hAdded : ∀ e ∈ added, x.issued < e.number) : x.Grows y where
  archives := hArchives
  issued := hIssued
  opened := hOpened
  live := by
    refine ⟨[], added, ?_, hAdded⟩
    rw [hLive, dropBy_eq_self (by simp)]

theorem refl (x : Account S) : x.Grows x :=
  of_append (List.prefix_refl _) (Nat.le_refl _) id (List.append_nil _).symm
    (by simp)

theorem trans (x y z : Account S) (hxy : x.Grows y) (hyz : y.Grows z) :
    x.Grows z where
  archives := hxy.archives.trans hyz.archives
  issued := Nat.le_trans hxy.issued hyz.issued
  opened h := hyz.opened (hxy.opened h)
  live := by
    obtain ⟨sids, added, hy, hAdded⟩ := hxy.live
    obtain ⟨sids', added', hz, hAdded'⟩ := hyz.live
    refine ⟨sids ++ sids', dropBy Entry.sourceId sids' added ++ added', ?_, ?_⟩
    · rw [hz, hy, dropBy_append, dropBy_dropBy, List.append_assoc]
    · intro e he
      rcases List.mem_append.mp he with hOld | hNew
      · exact hAdded e (mem_dropBy.mp hOld).1
      · exact Nat.lt_of_le_of_lt hxy.issued (hAdded' e hNew)

/-- Accepting a credential is one of the ways an account grows. -/
theorem accept (x : Account S) (e : Entry S)
    (hNext : e.number = x.issued + 1)
    (hFresh : e.key ∉ x.live.map Entry.key) :
    x.Grows (x.accept e hNext hFresh) := by
  refine of_append (y := x.accept e hNext hFresh) (List.prefix_refl _)
    (Nat.le_succ _) (fun _ => rfl) (rfl : _ = x.live ++ [e]) ?_
  intro b hb
  rw [List.mem_singleton] at hb
  rw [hb, hNext]
  exact Nat.lt_succ_self _

/-- Anchoring an archive is another; the live credentials stay. -/
theorem anchor (x : Account S) (r : ArchiveRecord)
    (hFits : x.archives.length + 1 < UInt32.size) :
    x.Grows (x.anchor r hFits) :=
  of_append (List.prefix_append _ _) (Nat.le_refl _) id (List.append_nil _).symm
    (by simp)

/-- Removing credentials is the third: an archive must be there, and every
issued number stays used. -/
theorem prune (x : Account S) (sids : List HostString)
    (hSome : x.archives ≠ []) : x.Grows (x.prune sids hSome) where
  archives := List.prefix_refl _
  issued := Nat.le_refl _
  opened := fun _ => rfl
  live := ⟨sids, [], (List.append_nil _).symm, by simp⟩

/-! ## What growth leaves of the live credentials -/

variable {x y : Account S}

/-- Credentials up to the old count are old ones. -/
theorem filter_of_split {sids : List HostString} {added : List (Entry S)}
    (hLive : y.live = dropBy Entry.sourceId sids x.live ++ added)
    (hAdded : ∀ e ∈ added, x.issued < e.number) :
    y.live.filter (fun e => e.number ≤ x.issued) =
      dropBy Entry.sourceId sids x.live := by
  have hOld : (dropBy Entry.sourceId sids x.live).filter
      (fun e => e.number ≤ x.issued) = dropBy Entry.sourceId sids x.live := by
    rw [List.filter_eq_self]
    intro e he
    simpa using x.range e (mem_dropBy.mp he).1
  have hNew : added.filter (fun e => e.number ≤ x.issued) = [] := by
    rw [List.filter_eq_nil_iff]
    intro e he
    simpa using hAdded e he
  rw [hLive, List.filter_append, hOld, hNew, List.append_nil]

/-- Of the credentials live later, those issued by now are what removals by
source id leave of the ones live now: a removal cannot pick one of two live
credentials of one source. -/
theorem live_filter (h : x.Grows y) :
    ∃ sids, y.live.filter (fun e => e.number ≤ x.issued) =
      dropBy Entry.sourceId sids x.live := by
  obtain ⟨sids, added, hLive, hAdded⟩ := h.live
  exact ⟨sids, filter_of_split hLive hAdded⟩

/-- Without an archive in the end nothing was forgotten. -/
theorem live_filter_of_unarchived (h : x.Grows y) (hNone : y.archives = []) :
    y.live.filter (fun e => e.number ≤ x.issued) = x.live := by
  obtain ⟨sids, added, hLive, hAdded⟩ := h.live
  rw [filter_of_split hLive hAdded]
  have hNone' : x.archives = [] := List.prefix_nil.mp (hNone ▸ h.archives)
  have hAddedLe : added.length ≤ y.issued - x.issued := by
    have hIncreasing := y.increasing
    have hRange := y.range
    rw [hLive] at hIncreasing hRange
    exact Increasing.length_le (List.pairwise_append.mp hIncreasing).2.1 hAdded
      fun e he => hRange e (List.mem_append_right _ he)
  -- a credential forgotten would leave a gap that none of the new ones fills
  have hBefore := x.unpruned hNone'
  have hAfter := y.unpruned hNone
  have hIssued := h.issued
  have hKept := (dropBy_sublist Entry.sourceId sids x.live).length_le
  rw [hLive, List.length_append] at hAfter
  exact (dropBy_sublist _ sids x.live).eq_of_length (by omega)

end Grows

end Account

end ForgePass.Contracts.CredentialStore
