import ForgePass.Contracts.CredentialAccount
import ForgePass.Verified.Cells
import ForgePass.Verified.Evolution

/-!
# Credential calls whose order matters

The four entries of a wallet, as they lie in storage, are its *shelf*.  A call
that is let in reads and writes one shelf, so only calls about one wallet can
clash.  Which of them do depends on little: whether the keys to be added are
live, and whether the guard of `remove_credentials` would open or close in
between.

Shelves need not be sound: nothing here asks that the counters have room, and
so one of the cases is an archive index that wraps to 0.
-/

namespace ForgePass.Contracts.CredentialStore

open ForgePass.Verified
open ForgePass.Verified.Machine

variable {A S : Type}

/-- The stored entries of one wallet. -/
@[ext] structure Shelf (A S : Type) where
  credentials : Option (List (CredentialRecord A S))
  counter : Option UInt64
  index : Option UInt32
  slots : UInt32 → Option ArchiveRecord

namespace Shelf

/-- Nothing is stored for the wallet. -/
def blank : Shelf A S := ⟨none, none, none, fun _ => none⟩

/-- The live credentials of the wallet. -/
def live (x : Shelf A S) : List (CredentialRecord A S) := x.credentials.getD []

/-- The number that was issued last, 0 if none was. -/
def last (x : Shelf A S) : UInt64 := x.counter.getD 0

/-- The slot that the next archive record goes to. -/
def next (x : Shelf A S) : UInt32 := x.index.getD 0

/-- Some live credential has the key. -/
def Holds (x : Shelf A S) (t : S) (sid : HostString) : Prop :=
  (t, sid) ∈ x.live.map dedupKey

instance [DecidableEq S] (x : Shelf A S) (t : S) (sid : HostString) :
    Decidable (x.Holds t sid) :=
  inferInstanceAs (Decidable ((t, sid) ∈ x.live.map dedupKey))

/-- What an accepted addition writes. -/
def accept (x : Shelf A S) (r : CredentialRecord A S) : Shelf A S :=
  { x with credentials := some (x.live ++ [r]), counter := some r.id }

/-- What an accepted archive record writes. -/
def anchor (x : Shelf A S) (r : ArchiveRecord) : Shelf A S :=
  { x with slots := Function.update x.slots x.next (some r)
           index := some (x.next + 1) }

/-- What an accepted removal writes. -/
def prune (x : Shelf A S) (sids : List HostString) : Shelf A S :=
  { x with
      credentials := some (dropBy CredentialRecord.sourceId sids x.live) }

end Shelf

/-! ## Operations on one shelf -/

/-- What a call that is let in asks of the shelf of its wallet. -/
inductive Operation (A S : Type) where
  | add (wallet : A) (signalType : S) (sourceId : HostString)
      (eventDate : UInt64) (dataHash : HostString)
  | anchor (record : ArchiveRecord)
  | remove (sourceIds : List HostString)

section Shelves

variable [DecidableEq S]

/-- The operations on one shelf. -/
def shelfMachine : Machine (Shelf A S) (Operation A S) Answer where
  init := .blank
  step x
    | .add w t sid d h =>
        if x.Holds t sid then (.error (.error .credentialAlreadyExists), x)
        else (.ok (.credentialId (x.last + 1)),
          x.accept ⟨x.last + 1, w, t, sid, d, h⟩)
    | .anchor r => (.ok .unit, x.anchor r)
    | .remove sids =>
        if x.next = 0 then (.error (.error .archiveRecordRequired), x)
        else (.ok .unit, x.prune sids)

/-- Operations on one shelf whose order matters: two additions of keys that are
not live, an addition and a removal that names it, two different archives, and
an archive that opens the guard of a removal, or closes it by a wrap. -/
def Operation.Clash (held : S → HostString → Prop) (next : UInt32) :
    Operation A S → Operation A S → Prop
  | .add _ t sid _ _, .add _ t' sid' _ _ => ¬held t sid ∧ ¬held t' sid'
  | .add _ _ sid _ _, .remove sids => next ≠ 0 ∧ sid ∈ sids
  | .remove sids, .add _ _ sid _ _ => next ≠ 0 ∧ sid ∈ sids
  | .anchor r, .anchor r' => r ≠ r'
  | .anchor _, .remove _ => next = 0 ∨ next + 1 = 0
  | .remove _, .anchor _ => next = 0 ∨ next + 1 = 0
  | .add _ _ _ _ _, .anchor _ => False
  | .anchor _, .add _ _ _ _ _ => False
  | .remove _, .remove _ => False

/-! ## Which operations clash -/

section Pairs

variable {x : Shelf A S} {w w' : A} {t t' : S} {sid sid' : HostString}
  {d d' : UInt64} {h h' : HostString} {sids sids' : List HostString}
  {r r' : ArchiveRecord}

/-- An addition is refused as known where its key is live. -/
theorem add_of_holds (hHolds : x.Holds t sid) :
    shelfMachine.step x (.add w t sid d h) =
      (.error (.error .credentialAlreadyExists), x) := if_pos hHolds

theorem add_of_not_holds (hNew : ¬x.Holds t sid) :
    shelfMachine.step x (.add w t sid d h) =
      (.ok (.credentialId (x.last + 1)),
        x.accept ⟨x.last + 1, w, t, sid, d, h⟩) := if_neg hNew

/-- A removal is refused while the archive index is 0. -/
theorem remove_of_unarchived (hNone : x.next = 0) :
    shelfMachine.step x (.remove sids) =
      (.error (.error .archiveRecordRequired), x) := if_pos hNone

theorem remove_of_archived (hSome : x.next ≠ 0) :
    shelfMachine.step x (.remove sids) = (.ok .unit, x.prune sids) :=
  if_neg hSome

omit [DecidableEq S] in
theorem holds_accept {c : CredentialRecord A S} (hHolds : x.Holds t sid) :
    (x.accept c).Holds t sid := by
  show (t, sid) ∈ (x.live ++ [c]).map dedupKey
  rw [List.map_append]
  exact List.mem_append_left _ hHolds

omit [DecidableEq S] in
/-- A removal that does not name the source id does not show in the scan. -/
theorem holds_prune_iff (hSid : sid ∉ sids) :
    (x.prune sids).Holds t sid ↔ x.Holds t sid := by
  show (t, sid) ∈ (dropBy CredentialRecord.sourceId sids x.live).map dedupKey ↔
    (t, sid) ∈ x.live.map dedupKey
  rw [List.mem_map, List.mem_map]
  constructor
  · rintro ⟨c, hc, hKey⟩
    exact ⟨c, (mem_dropBy.mp hc).1, hKey⟩
  · rintro ⟨c, hc, hKey⟩
    have hSource : c.sourceId = sid := congrArg Prod.snd hKey
    exact ⟨c, mem_dropBy.mpr ⟨hc, hSource ▸ hSid⟩, hKey⟩

omit [DecidableEq S] in
theorem not_holds_prune (hSid : sid ∈ sids) : ¬(x.prune sids).Holds t sid := by
  intro hHolds
  obtain ⟨c, hc, hKey⟩ := List.mem_map.mp hHolds
  have hSource : c.sourceId = sid := congrArg Prod.snd hKey
  exact (mem_dropBy.mp hc).2 (hSource ▸ hSid)

/-- An addition that is rejected is rejected after any other addition. -/
theorem add_commutes_of_holds (hHolds : x.Holds t sid) :
    shelfMachine.Commutes x (.add w t sid d h) (.add w' t' sid' d' h') := by
  apply Commutes.of_idle
  · rw [add_of_holds hHolds]
  · rw [add_of_holds hHolds]
    by_cases hOther : x.Holds t' sid'
    · rw [add_of_holds hOther, add_of_holds hHolds]
    · rw [add_of_not_holds hOther, add_of_holds (holds_accept hHolds)]

/-- Two additions clash exactly if both keys are new: the ids are handed out in
order, so each addition gets the number it would not get second. -/
theorem add_add_iff :
    shelfMachine.Commutes x (.add w t sid d h) (.add w' t' sid' d' h') ↔
      ¬(¬x.Holds t sid ∧ ¬x.Holds t' sid') := by
  by_cases hHolds : x.Holds t sid
  · simp [hHolds, add_commutes_of_holds hHolds]
  · by_cases hOther : x.Holds t' sid'
    · simp [hOther, (add_commutes_of_holds hOther).symm]
    · -- whichever comes second does not get the next id
      simp only [hHolds, hOther, not_false_eq_true, and_self, not_true_eq_false,
        iff_false]
      intro hCommutes
      have hFirst := hCommutes.first
      rw [add_of_not_holds hHolds, add_of_not_holds hOther] at hFirst
      by_cases hSame : (x.accept ⟨x.last + 1, w', t', sid', d', h'⟩).Holds t sid
      · rw [add_of_holds hSame] at hFirst
        cases hFirst
      · rw [add_of_not_holds hSame] at hFirst
        simp [Shelf.accept, Shelf.last] at hFirst

/-- Additions and archives touch different parts of a shelf. -/
theorem add_anchor_commutes :
    shelfMachine.Commutes x (.add w t sid d h) (.anchor r) := by
  by_cases hHolds : x.Holds t sid
  · apply Commutes.of_idle
    · rw [add_of_holds hHolds]
    · have hLater : (shelfMachine.step x (.anchor r)).2.Holds t sid := hHolds
      rw [add_of_holds hHolds, add_of_holds hLater]
  · have hLater : ¬(shelfMachine.step x (.anchor r)).2.Holds t sid := hHolds
    constructor
    · rw [add_of_not_holds hLater, add_of_not_holds hHolds]
      rfl
    · rfl
    · rw [add_of_not_holds hLater, add_of_not_holds hHolds]
      rfl

/-- An addition and a removal clash exactly if the guard lets the removal
through and it names the source of the addition. -/
theorem add_remove_iff :
    shelfMachine.Commutes x (.add w t sid d h) (.remove sids) ↔
      ¬(x.next ≠ 0 ∧ sid ∈ sids) := by
  by_cases hGuard : x.next = 0
  · -- a removal without an archive fails before and after
    have hCommutes : shelfMachine.Commutes x (.remove sids)
        (.add w t sid d h) := by
      have hLater : (shelfMachine.step x (.add w t sid d h)).2.next = 0 := by
        by_cases hHolds : x.Holds t sid
        · rw [add_of_holds hHolds]
          exact hGuard
        · rw [add_of_not_holds hHolds]
          exact hGuard
      apply Commutes.of_idle
      · rw [remove_of_unarchived hGuard]
      · rw [remove_of_unarchived hGuard, remove_of_unarchived hLater]
    simp [hGuard, hCommutes.symm]
  · have hAccept (c : CredentialRecord A S) : (x.accept c).next ≠ 0 := hGuard
    by_cases hSid : sid ∈ sids
    · simp only [ne_eq, hGuard, not_false_eq_true, hSid, and_self,
        not_true_eq_false, iff_false]
      intro hCommutes
      have hGone : ¬(x.prune sids).Holds t sid := not_holds_prune hSid
      by_cases hHolds : x.Holds t sid
      · -- rejected before the removal, accepted after it
        have hFirst := hCommutes.first
        rw [remove_of_archived hGuard, add_of_not_holds hGone,
          add_of_holds hHolds] at hFirst
        cases hFirst
      · -- removed at once, or issued after the removal
        have hState := hCommutes.state
        rw [add_of_not_holds hHolds, remove_of_archived hGuard,
          add_of_not_holds hGone, remove_of_archived (hAccept _)] at hState
        change (x.accept _).prune sids = (x.prune sids).accept _ at hState
        have hKept : ((x.prune sids).accept
            ⟨(x.prune sids).last + 1, w, t, sid, d, h⟩).Holds t sid :=
          List.mem_map.mpr ⟨_, List.mem_append_right _
            (List.mem_singleton_self _), rfl⟩
        rw [← hState] at hKept
        exact not_holds_prune hSid hKept
    · simp only [hSid, and_false, not_false_eq_true, iff_true]
      by_cases hHolds : x.Holds t sid
      · apply Commutes.of_idle
        · rw [add_of_holds hHolds]
        · rw [add_of_holds hHolds, remove_of_archived hGuard,
            add_of_holds ((holds_prune_iff hSid).mpr hHolds)]
      · have hLater : ¬(x.prune sids).Holds t sid := fun hPruned =>
          hHolds ((holds_prune_iff hSid).mp hPruned)
        have hDrop : dropBy CredentialRecord.sourceId sids
            (x.live ++ [⟨x.last + 1, w, t, sid, d, h⟩]) =
              dropBy CredentialRecord.sourceId sids x.live ++
                [⟨x.last + 1, w, t, sid, d, h⟩] := dropBy_concat x.live hSid
        constructor
        · rw [remove_of_archived hGuard, add_of_not_holds hLater,
            add_of_not_holds hHolds]
          rfl
        · rw [add_of_not_holds hHolds, remove_of_archived hGuard,
            remove_of_archived (hAccept _)]
        · rw [add_of_not_holds hHolds, remove_of_archived hGuard,
            add_of_not_holds hLater, remove_of_archived (hAccept _)]
          apply Shelf.ext
          · exact congrArg some hDrop
          · rfl
          · rfl
          · rfl

/-- Two archives clash unless they are equal: their slots are filled in order.
-/
theorem anchor_anchor_iff :
    shelfMachine.Commutes x (.anchor r) (.anchor r') ↔ ¬r ≠ r' := by
  rw [not_not]
  constructor
  · intro hCommutes
    -- the slot that the first of the two fills
    have hNe : x.next ≠ x.next + 1 := by simp
    have hSlot := congrArg (fun y => y.slots x.next) hCommutes.state
    simp only [shelfMachine, Shelf.anchor, Shelf.next, Option.getD_some] at hSlot hNe
    rw [Function.update_of_ne hNe, Function.update_of_ne hNe,
      Function.update_self, Function.update_self] at hSlot
    exact Option.some.inj hSlot
  · rintro rfl
    exact ⟨rfl, rfl, rfl⟩

/-- An archive and a removal clash exactly if the archive opens the guard, or
closes it by a wrap of the index. -/
theorem anchor_remove_iff :
    shelfMachine.Commutes x (.anchor r) (.remove sids) ↔
      ¬(x.next = 0 ∨ x.next + 1 = 0) := by
  have hNext : (x.anchor r).next = x.next + 1 := rfl
  have hAnchor : shelfMachine.step x (.anchor r) = (.ok .unit, x.anchor r) := rfl
  by_cases hBefore : x.next = 0
  · simp only [hBefore, true_or, not_true_eq_false, iff_false]
    intro hCommutes
    have hSecond := hCommutes.second
    have hAfter : (x.anchor r).next ≠ 0 := by
      rw [hNext, hBefore]
      decide
    rw [hAnchor, remove_of_archived hAfter, remove_of_unarchived hBefore]
      at hSecond
    cases hSecond
  · by_cases hWrap : x.next + 1 = 0
    · simp only [hWrap, or_true, not_true_eq_false, iff_false]
      intro hCommutes
      have hSecond := hCommutes.second
      rw [hAnchor, remove_of_unarchived (hNext.trans hWrap),
        remove_of_archived hBefore] at hSecond
      cases hSecond
    · simp only [hBefore, hWrap, or_self, not_false_eq_true, iff_true]
      have hAfter : (x.anchor r).next ≠ 0 := hWrap
      constructor
      · rfl
      · rw [hAnchor, remove_of_archived hAfter, remove_of_archived hBefore]
      · rw [hAnchor, remove_of_archived hAfter, remove_of_archived hBefore]
        rfl

/-- Removals commute: each leaves what it does not name. -/
theorem remove_remove_commutes :
    shelfMachine.Commutes x (.remove sids) (.remove sids') := by
  by_cases hGuard : x.next = 0
  · apply Commutes.of_idle
    · rw [remove_of_unarchived hGuard]
    · rw [remove_of_unarchived hGuard, remove_of_unarchived hGuard]
  · have hLater : (x.prune sids).next ≠ 0 := hGuard
    have hLater' : (x.prune sids').next ≠ 0 := hGuard
    constructor
    · rw [remove_of_archived hGuard, remove_of_archived hGuard,
        remove_of_archived hLater']
    · rw [remove_of_archived hGuard, remove_of_archived hGuard,
        remove_of_archived hLater]
    · rw [remove_of_archived hGuard, remove_of_archived hGuard,
        remove_of_archived hLater, remove_of_archived hLater']
      apply Shelf.ext
      · apply congrArg some
        show dropBy _ sids' (dropBy _ sids x.live) =
          dropBy _ sids (dropBy _ sids' x.live)
        rw [dropBy_dropBy, dropBy_dropBy]
        apply dropBy_congr
        intro c hc
        rw [List.mem_append, List.mem_append, or_comm]
      · rfl
      · rfl
      · rfl

end Pairs

/-- The table of the credential store, assembled from its six pairs. -/
theorem shelf_commutes_iff (x : Shelf A S) (o o' : Operation A S) :
    shelfMachine.Commutes x o o' ↔ ¬o.Clash x.Holds x.next o' := by
  cases o with
  | add w t sid d h =>
      cases o' with
      | add w' t' sid' d' h' => exact add_add_iff
      | anchor r => simp [Operation.Clash, add_anchor_commutes]
      | remove sids => exact add_remove_iff
  | anchor r =>
      cases o' with
      | add w t sid d h => simp [Operation.Clash, add_anchor_commutes.symm]
      | anchor r' => exact anchor_anchor_iff
      | remove sids => exact anchor_remove_iff
  | remove sids =>
      cases o' with
      | add w t sid d h => exact commutes_comm.trans add_remove_iff
      | anchor r => exact commutes_comm.trans anchor_remove_iff
      | remove sids' => simp [Operation.Clash, remove_remove_commutes]

end Shelves

/-! ## Storage made of shelves -/

/-- The storage made of the shelves of all wallets. -/
def shelve : Deployment A (A → Shelf A S) → Store A S
  | .fresh => Ledger.empty
  | .installed a f =>
      { instanceTier := fun
          | .admin => some a
          | .credentials _ => none
          | .credentialCounter w => (f w).counter
          | .archiveRecord _ _ => none
          | .archiveIndex w => (f w).index
        persistentTier := fun
          | .admin => none
          | .credentials w => (f w).credentials
          | .credentialCounter _ => none
          | .archiveRecord w i => (f w).slots i
          | .archiveIndex _ => none }

section Views

variable (a : A) (f : A → Shelf A S) (w : A)

@[simp] theorem adminOf_shelve :
    adminOf (shelve (.installed a f)) = some a := rfl

@[simp] theorem archiveIndex_shelve :
    archiveIndex (shelve (.installed a f)) w = (f w).next := rfl

end Views

/-- Storage shows every shelf, so the shelves can be read back from it. -/
theorem shelve_injective (a : A) :
    Function.Injective fun f : A → Shelf A S => shelve (.installed a f) := by
  intro f g h
  funext w
  apply Shelf.ext
  · exact congrArg (fun s => s.persistentTier.get (.credentials w)) h
  · exact congrArg (fun s => s.instanceTier.get (.credentialCounter w)) h
  · exact congrArg (fun s => s.instanceTier.get (.archiveIndex w)) h
  · funext i
    exact congrArg (fun s => s.persistentTier.get (.archiveRecord w i)) h

variable [DecidableEq A]

/-- Accepting a credential, on the storage of a family of shelves. -/
theorem acceptCredential_shelve (a : A) (f : A → Shelf A S)
    (r : CredentialRecord A S) :
    acceptCredential (shelve (.installed a f)) r =
      shelve (.installed a
        (Function.update f r.wallet ((f r.wallet).accept r))) := by
  apply Ledger.ext
  · intro k
    cases k with
    | admin => rfl
    | credentials v => rfl
    | credentialCounter v =>
        show _ = (Function.update f r.wallet _ v).counter
        by_cases hv : v = r.wallet
        · subst hv
          rw [Function.update_self]
          exact Storage.get_set_self _ _ _
        · rw [Function.update_of_ne hv]
          exact Storage.get_set_of_ne _ (by simpa using hv) _
    | archiveRecord v i => rfl
    | archiveIndex v =>
        exact (update_agree Shelf.index (f := f)
          (x := (f r.wallet).accept r) rfl v).symm
  · intro k
    cases k with
    | admin => rfl
    | credentials v =>
        show _ = (Function.update f r.wallet _ v).credentials
        by_cases hv : v = r.wallet
        · subst hv
          rw [Function.update_self]
          exact Storage.get_set_self _ _ _
        · rw [Function.update_of_ne hv]
          exact Storage.get_set_of_ne _ (by simpa using hv) _
    | credentialCounter v => rfl
    | archiveRecord v i =>
        exact (update_agree (fun x : Shelf A S => x.slots i)
          (f := f) (x := (f r.wallet).accept r) rfl v).symm
    | archiveIndex v => rfl

/-- Anchoring an archive, on the storage of a family of shelves. -/
theorem anchorArchive_shelve (a : A) (f : A → Shelf A S) (w : A)
    (r : ArchiveRecord) :
    anchorArchive (shelve (.installed a f)) w r =
      shelve (.installed a (Function.update f w ((f w).anchor r))) := by
  apply Ledger.ext
  · intro k
    cases k with
    | admin => rfl
    | credentials v => rfl
    | credentialCounter v =>
        exact (update_agree Shelf.counter (f := f)
          (x := (f w).anchor r) rfl v).symm
    | archiveRecord v i => rfl
    | archiveIndex v =>
        show _ = (Function.update f w _ v).index
        by_cases hv : v = w
        · subst hv
          rw [Function.update_self]
          exact Storage.get_set_self _ _ _
        · rw [Function.update_of_ne hv]
          exact Storage.get_set_of_ne _ (by simpa using hv) _
  · intro k
    cases k with
    | admin => rfl
    | credentials v =>
        exact (update_agree Shelf.credentials (f := f)
          (x := (f w).anchor r) rfl v).symm
    | credentialCounter v => rfl
    | archiveRecord v i =>
        show _ = (Function.update f w _ v).slots i
        by_cases hKey : v = w ∧ i = (f w).next
        · obtain ⟨rfl, rfl⟩ := hKey
          rw [Function.update_self]
          show _ = Function.update (f v).slots (f v).next (some r) (f v).next
          rw [Function.update_self]
          exact Storage.get_set_self _ _ _
        · have hSlot : (Function.update f w ((f w).anchor r) v).slots i =
              (f v).slots i := by
            by_cases hv : v = w
            · subst hv
              rw [Function.update_self]
              exact Function.update_of_ne (fun hi => hKey ⟨rfl, hi⟩) _ _
            · rw [Function.update_of_ne hv]
          rw [hSlot]
          exact Storage.get_set_of_ne _ (by simpa using hKey) _
    | archiveIndex v => rfl

/-- Removing credentials, on the storage of a family of shelves. -/
theorem pruneCredentials_shelve (a : A) (f : A → Shelf A S) (w : A)
    (sids : List HostString) :
    pruneCredentials (shelve (.installed a f)) w sids =
      shelve (.installed a (Function.update f w ((f w).prune sids))) := by
  apply Ledger.ext
  · intro k
    cases k with
    | admin => rfl
    | credentials v => rfl
    | credentialCounter v =>
        exact (update_agree Shelf.counter (f := f)
          (x := (f w).prune sids) rfl v).symm
    | archiveRecord v i => rfl
    | archiveIndex v =>
        exact (update_agree Shelf.index (f := f)
          (x := (f w).prune sids) rfl v).symm
  · intro k
    cases k with
    | admin => rfl
    | credentials v =>
        show _ = (Function.update f w _ v).credentials
        by_cases hv : v = w
        · subst hv
          rw [Function.update_self]
          exact Storage.get_set_self _ _ _
        · rw [Function.update_of_ne hv]
          exact Storage.get_set_of_ne _ (by simpa using hv) _
    | credentialCounter v => rfl
    | archiveRecord v i =>
        exact (update_agree (fun x : Shelf A S => x.slots i)
          (f := f) (x := (f w).prune sids) rfl v).symm
    | archiveIndex v => rfl

/-- The operation of a call that administrator `a` authorised. -/
def operation (a : A) (i : Invocation A (Call A S)) : Option (Operation A S) :=
  if a ∈ i.env.auths then
    match i.call with
    | .initializeAdmin _ => none
    | .addCredential w t sid d h => some (.add w t sid d h)
    | .addArchiveRecord _ root count time cid =>
        some (.anchor ⟨root, count, time, cid⟩)
    | .removeCredentials _ sids => some (.remove sids)
  else none

variable [DecidableEq S]

/-- The calls are let in, are about one wallet, and their order shows in its
shelf. -/
def Clash (s : Store A S) (i j : Invocation A (Call A S)) : Prop :=
  ∃ a o o', adminOf s = some a ∧ operation a i = some o ∧
    operation a j = some o' ∧ subject i.call = subject j.call ∧
    o.Clash (fun t sid => credentialExists s (subject i.call) t sid = true)
      (archiveIndex s (subject i.call)) o'

omit [DecidableEq A] in
theorem holds_iff_exists (a : A) (f : A → Shelf A S) (w : A) (t : S)
    (sid : HostString) :
    credentialExists (shelve (.installed a f)) w t sid = true ↔
      (f w).Holds t sid := credentialExists_iff_mem _ w t sid

/-- A call that is not let in is answered alike whatever lies on the shelves,
and moves nothing. -/
theorem step_idle {a : A} {i : Invocation A (Call A S)}
    (hIdle : operation a i = none) : ∃ answer, ∀ f : A → Shelf A S,
      machine.step (shelve (.installed a f)) i =
        (answer, shelve (.installed a f)) := by
  obtain ⟨env, call⟩ := i
  cases call with
  | initializeAdmin b =>
      exact ⟨_, fun f => step_initializeAdmin _ env b⟩
  | addCredential w t sid d h =>
      have hNot : a ∉ env.auths := by simpa [operation] using hIdle
      refine ⟨.error .trap, fun f => ?_⟩
      rw [step_addCredential, if_neg (by simpa using hNot)]
      rfl
  | addArchiveRecord w root count time cid =>
      have hNot : a ∉ env.auths := by simpa [operation] using hIdle
      refine ⟨.error .trap, fun f => ?_⟩
      rw [step_addArchiveRecord, if_neg (by simpa using hNot)]
      rfl
  | removeCredentials w sids =>
      have hNot : a ∉ env.auths := by simpa [operation] using hIdle
      refine ⟨.error .trap, fun f => ?_⟩
      rw [step_removeCredentials, if_neg (by simpa using hNot)]
      rfl

omit [DecidableEq S] in
theorem shelve_of_get (a : A) {f : A → Shelf A S} {w : A} {x : Shelf A S}
    (hShelf : f w = x) : shelve (.installed a f) =
      shelve (.installed a (Function.update f w x)) := by
  rw [← hShelf, Function.update_eq_self]

/-- A call that is let in moves the shelf of its wallet as the shelf machine
does, and is answered as that machine answers. -/
theorem step_operation {a : A} {i : Invocation A (Call A S)}
    {o : Operation A S} (hActs : operation a i = some o) (f : A → Shelf A S) :
    machine.step (shelve (.installed a f)) i =
      ((shelfMachine.step (f (subject i.call)) o).1,
        shelve (.installed a (Function.update f (subject i.call)
          (shelfMachine.step (f (subject i.call)) o).2))) := by
  obtain ⟨env, call⟩ := i
  have hAuth : a ∈ env.auths := by
    by_contra hNot
    simp [operation, hNot] at hActs
  have hSigned : SignedBy (adminOf (shelve (.installed a f))) env := by
    simpa using hAuth
  cases call with
  | initializeAdmin b => simp [operation] at hActs
  | addCredential w t sid d h =>
      obtain rfl : .add w t sid d h = o := by simpa [operation, hAuth] using hActs
      show _ = ((shelfMachine.step (f w) _).1, shelve (.installed a
        (Function.update f w (shelfMachine.step (f w) _).2)))
      rw [step_addCredential, if_pos hSigned]
      by_cases hHolds : (f w).Holds t sid
      · rw [if_pos ((holds_iff_exists a f w t sid).mpr hHolds),
          add_of_holds hHolds]
        exact congrArg (Prod.mk _) (shelve_of_get a rfl)
      · rw [if_neg (mt (holds_iff_exists a f w t sid).mp hHolds),
          add_of_not_holds hHolds]
        exact congrArg (Prod.mk _) (acceptCredential_shelve a f
          ⟨(f w).last + 1, w, t, sid, d, h⟩)
  | addArchiveRecord w root count time cid =>
      obtain rfl : .anchor ⟨root, count, time, cid⟩ = o := by
        simpa [operation, hAuth] using hActs
      rw [step_addArchiveRecord, if_pos hSigned]
      exact congrArg (Prod.mk _)
        (anchorArchive_shelve a f w ⟨root, count, time, cid⟩)
  | removeCredentials w sids =>
      obtain rfl : .remove sids = o := by simpa [operation, hAuth] using hActs
      show _ = ((shelfMachine.step (f w) _).1, shelve (.installed a
        (Function.update f w (shelfMachine.step (f w) _).2)))
      rw [step_removeCredentials, if_pos hSigned, archiveIndex_shelve]
      by_cases hGuard : (f w).next = 0
      · rw [if_pos hGuard, remove_of_unarchived hGuard]
        exact congrArg (Prod.mk _) (shelve_of_get a rfl)
      · rw [if_neg hGuard, remove_of_archived hGuard]
        exact congrArg (Prod.mk _) (pruneCredentials_shelve a f w sids)

/-- The credential store is a family of shelves, one for each wallet. -/
theorem celled (a : A) :
    Celled machine (fun i => subject i.call) (operation a) shelfMachine
      (fun f : A → Shelf A S => shelve (.installed a f)) where
  injective := shelve_injective a
  idle _ hIdle := step_idle hIdle
  acts _ _ hActs f := step_operation hActs f

/-- Storage consists of shelves, counters that wrapped or not: a shelf is what
is stored of a wallet, under no invariant. -/
theorem run_shelve (is : List (Invocation A (Call A S))) :
    ∃ c, machine.run is = shelve c := by
  apply machine.invariant (I := fun s => ∃ c, s = shelve c)
  · exact ⟨.fresh, rfl⟩
  · rintro s i ⟨c, rfl⟩
    cases c with
    | fresh =>
        have hStep := step_transition (shelve (S := S) .fresh) i
        generalize (machine.step (shelve .fresh) i).1 = answer at hStep
        generalize (machine.step (shelve .fresh) i).2 = s' at hStep
        cases hStep with
        | refused i e => exact ⟨.fresh, rfl⟩
        | initialized env a hAdmin =>
            refine ⟨.installed a fun _ => .blank, Ledger.ext ?_ ?_⟩
            · intro k
              cases k <;> rfl
            · intro k
              cases k <;> rfl
        | accepted env w t sid d h hSigned hFresh =>
            exact absurd hSigned (not_signedBy_none _)
        | anchored env w root count time cid hSigned =>
            exact absurd hSigned (not_signedBy_none _)
        | pruned env w sids hSigned hGuard =>
            exact absurd hSigned (not_signedBy_none _)
    | installed a f =>
        obtain ⟨g, hg⟩ := (celled a).step_assemble f i
        exact ⟨.installed a g, hg⟩

/-- **Credential calls that clash.** Two calls can change places exactly if
their operations do not clash on the shelf of one wallet, counters that wrapped
included. -/
theorem commutes_iff_not_clash {is : List (Invocation A (Call A S))} {a : A}
    (hAdmin : adminOf (machine.run is) = some a)
    (i j : Invocation A (Call A S)) :
    machine.Commutes (machine.run is) i j ↔ ¬Clash (machine.run is) i j := by
  obtain ⟨c, hc⟩ := run_shelve is
  rw [hc] at hAdmin ⊢
  cases c with
  | fresh => cases hAdmin
  | installed b f =>
      obtain rfl : b = a := Option.some.inj hAdmin
      have hCells := (celled b).commutes_iff f i j
      simp only [shelf_commutes_iff] at hCells
      rw [hCells]
      unfold Clash
      simp only [hAdmin, holds_iff_exists, archiveIndex_shelve]
      grind

end ForgePass.Contracts.CredentialStore
