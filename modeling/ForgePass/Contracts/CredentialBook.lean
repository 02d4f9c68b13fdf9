import ForgePass.Contracts.CounterLimits
import ForgePass.Contracts.CredentialAccount
import ForgePass.Verified.Evolution

/-!
# The reachable credential stores

`store` writes the accounts of all wallets into the five kinds of keys of the
contract.  While the counters have room, every storage a run reaches is
written so, and accounts grow in every way that `Account.Grows` allows: the
contract forbids nothing else.

For the second half an account is grown to a given one by calls: first the
archives, then one removal, then one credential after the other.  A number
that is to be missing in the end is issued under a source id that no live
credential has, and removed at once.
-/

namespace ForgePass.Contracts.CredentialStore

open ForgePass.Verified
open ForgePass.Verified.Machine

variable {A S : Type}

/-- The accounts kept, by wallet. -/
abbrev Book (A S : Type) := A → Account S

/-- The book of a contract that served no wallet. -/
def Book.blank : Book A S := fun _ => .blank

/-- The storage in which a book is written. Entries that the book has nothing
to say about are absent, so that a book and its storage determine each other.
-/
def store : Deployment A (Book A S) → Store A S
  | .fresh => Ledger.empty
  | .installed a book =>
      { instanceTier := fun
          | .admin => some a
          | .credentials _ => none
          | .credentialCounter w => (book w).counterEntry
          | .archiveRecord _ _ => none
          | .archiveIndex w => (book w).indexEntry
        persistentTier := fun
          | .admin => none
          | .credentials w => (book w).credentialsEntry w
          | .credentialCounter _ => none
          | .archiveRecord w i => (book w).slotEntry i
          | .archiveIndex _ => none }

section Views

variable (a : A) (book : Book A S) (w : A)

@[simp] theorem adminOf_store :
    adminOf (store (.installed a book)) = some a := rfl

@[simp] theorem credentialCounter_store :
    credentialCounter (store (.installed a book)) w =
      .ofNat (book w).issued := (book w).counterEntry_getD

@[simp] theorem archiveIndex_store :
    archiveIndex (store (.installed a book)) w =
      .ofNat (book w).archives.length := (book w).indexEntry_getD

@[simp] theorem getCredentials_store :
    getCredentials (store (.installed a book)) w =
      (book w).live.map (Entry.record · w) := (book w).credentialsEntry_getD w

@[simp] theorem slotAt_store (i : UInt32) :
    slotAt (store (.installed a book)) w i = (book w).slotEntry i := rfl

/-- The archives of a book are read back in full. -/
theorem getArchiveRecords_store :
    getArchiveRecords (store (.installed a book)) w = (book w).archives := by
  have hLogged : Logged (archiveAt (store (.installed a book)) w)
      (book w).archives := by
    intro i hi
    show (book w).archives[(UInt32.ofNat i).toNat]? = _
    rw [UInt32.toNat_ofNat_of_lt' (Nat.lt_trans hi (book w).archivesFit)]
  rw [getArchiveRecords_eq, archiveIndex_store, (book w).archives_toNat]
  exact hLogged.read

theorem dedupKeys_store :
    (getCredentials (store (.installed a book)) w).map dedupKey =
      (book w).live.map Entry.key := by
  rw [getCredentials_store, List.map_map]
  rfl

end Views

/-! ## Growth of a book -/

/-- Finitely many accounts moved, each as an account can grow. Infinitely many
cannot: a run is a finite list of calls. -/
def Book.Grows (book book' : Book A S) : Prop :=
  Pointwise (fun _ => Account.Grows) book book'

namespace Book.Grows

theorem refl (book : Book A S) : book.Grows book :=
  Pointwise.refl (fun _ => Account.Grows.refl) book

theorem trans (x y z : Book A S) (hxy : x.Grows y) (hyz : y.Grows z) :
    x.Grows z := Pointwise.trans (fun _ => Account.Grows.trans) hxy hyz

theorem update [DecidableEq A] {book : Book A S} {w : A} {x : Account S}
    (h : (book w).Grows x) : book.Grows (Function.update book w x) :=
  Pointwise.update (fun _ => Account.Grows.refl) h

end Book.Grows

variable [DecidableEq A]

theorem setAdmin_empty (a : A) :
    (Ledger.empty : Store A S).setInstance .admin a =
      store (.installed a Book.blank) := by
  apply Ledger.ext
  · intro k
    cases k with
    | admin => rfl
    | credentials w => rfl
    | credentialCounter w => rfl
    | archiveRecord w i => rfl
    | archiveIndex w => rfl
  · intro k
    cases k with
    | admin => rfl
    | credentials w => rfl
    | credentialCounter w => rfl
    | archiveRecord w i => rfl
    | archiveIndex w => rfl

/-! ## What the writes do to the book -/

/-- Accepting a credential issues it in the account of its wallet. -/
theorem acceptCredential_store (a : A) (book : Book A S) (w : A) (e : Entry S)
    (hNext : e.number = (book w).issued + 1)
    (hFresh : e.key ∉ (book w).live.map Entry.key) :
    acceptCredential (store (.installed a book)) (e.record w) =
      store (.installed a
        (Function.update book w ((book w).accept e hNext hFresh))) := by
  generalize hy : (book w).accept e hNext hFresh = y
  have hCounter : y.counterEntry = some e.id := by
    rw [← hy]
    show (if (book w).issued + 1 = 0 then none
      else some (.ofNat ((book w).issued + 1))) = some e.id
    rw [if_neg (Nat.succ_ne_zero _), ← hNext]
    exact congrArg some UInt64.ofNat_toNat
  have hLive : y.credentialsEntry w =
      some (getCredentials (store (.installed a book)) w ++ [e.record w]) := by
    rw [← hy, getCredentials_store]
    show some (((book w).live ++ [e]).map (Entry.record · w)) = _
    rw [List.map_append]
    rfl
  apply Ledger.ext
  · intro k
    cases k with
    | admin => rfl
    | credentials v => rfl
    | credentialCounter v =>
        show _ = (Function.update book w y v).counterEntry
        by_cases hv : v = w
        · subst hv
          rw [Function.update_self, hCounter]
          exact Storage.get_set_self _ _ _
        · rw [Function.update_of_ne hv]
          apply Storage.get_set_of_ne
          simpa [Entry.record] using hv
    | archiveRecord v i => rfl
    | archiveIndex v =>
        exact (update_agree Account.indexEntry (by rw [← hy]; rfl) v).symm
  · intro k
    cases k with
    | admin => rfl
    | credentials v =>
        show _ = (Function.update book w y v).credentialsEntry v
        by_cases hv : v = w
        · subst hv
          rw [Function.update_self, hLive]
          exact Storage.get_set_self _ _ _
        · rw [Function.update_of_ne hv]
          apply Storage.get_set_of_ne
          simpa [Entry.record] using hv
    | credentialCounter v => rfl
    | archiveRecord v i =>
        exact (update_agree (Account.slotEntry i) (by rw [← hy]; rfl) v).symm
    | archiveIndex v => rfl

/-- Anchoring an archive adds it to the account of its wallet. -/
theorem anchorArchive_store (a : A) (book : Book A S) (w : A)
    (r : ArchiveRecord) (hFits : (book w).archives.length + 1 < UInt32.size) :
    anchorArchive (store (.installed a book)) w r =
      store (.installed a
        (Function.update book w ((book w).anchor r hFits))) := by
  generalize hy : (book w).anchor r hFits = y
  have hIndex : y.indexEntry =
      some (archiveIndex (store (.installed a book)) w + 1) := by
    rw [← hy, archiveIndex_store]
    show (if ((book w).archives ++ [r]).length = 0 then none
      else some (UInt32.ofNat ((book w).archives ++ [r]).length)) = _
    rw [List.length_append, List.length_singleton,
      if_neg (Nat.succ_ne_zero _), UInt32.ofNat_add]
    rfl
  apply Ledger.ext
  · intro k
    cases k with
    | admin => rfl
    | credentials v => rfl
    | credentialCounter v =>
        exact (update_agree Account.counterEntry (by rw [← hy]; rfl) v).symm
    | archiveRecord v i => rfl
    | archiveIndex v =>
        show _ = (Function.update book w y v).indexEntry
        by_cases hv : v = w
        · subst hv
          rw [Function.update_self, hIndex]
          exact Storage.get_set_self _ _ _
        · rw [Function.update_of_ne hv]
          apply Storage.get_set_of_ne
          simpa using hv
  · intro k
    cases k with
    | admin => rfl
    | credentials v =>
        exact (update_agree (Account.credentialsEntry v) (by rw [← hy]; rfl)
          v).symm
    | credentialCounter v => rfl
    | archiveRecord v i =>
        show slotAt (anchorArchive _ w r) v i =
          (Function.update book w y v).slotEntry i
        rw [slotAt_anchorArchive, slotAt_store, archiveIndex_store]
        by_cases hv : v = w
        · subst hv
          rw [Function.update_self, ← hy]
          show _ = ((book v).archives ++ [r])[i.toNat]?
          have hSlot : i = UInt32.ofNat (book v).archives.length ↔
              i.toNat = (book v).archives.length := by
            rw [← UInt32.toNat_inj, (book v).archives_toNat]
          by_cases hi : i.toNat = (book v).archives.length
          · rw [if_pos ⟨rfl, hSlot.mpr hi⟩, hi, List.getElem?_concat_length]
          · rw [if_neg fun hEq => hi (hSlot.mp hEq.2)]
            rcases Nat.lt_or_gt_of_ne hi with hLt | hGt
            · rw [List.getElem?_append_left hLt]
              rfl
            · have hLong : ((book v).archives ++ [r]).length ≤ i.toNat := by
                rw [List.length_append, List.length_singleton]
                omega
              rw [List.getElem?_eq_none hLong]
              exact List.getElem?_eq_none (Nat.le_of_lt hGt)
        · rw [if_neg fun hEq => hv hEq.1, Function.update_of_ne hv]
    | archiveIndex v => rfl

/-- Removing credentials prunes the account of their wallet. -/
theorem pruneCredentials_store (a : A) (book : Book A S) (w : A)
    (sids : List HostString) (hSome : (book w).archives ≠ []) :
    pruneCredentials (store (.installed a book)) w sids =
      store (.installed a
        (Function.update book w ((book w).prune sids hSome))) := by
  generalize hy : (book w).prune sids hSome = y
  have hLive : y.credentialsEntry w =
      some (dropBy CredentialRecord.sourceId sids
        (getCredentials (store (.installed a book)) w)) := by
    rw [← hy, getCredentials_store, ← map_dropBy (Entry.record · w)
      Entry.sourceId CredentialRecord.sourceId fun _ => rfl]
    rfl
  apply Ledger.ext
  · intro k
    cases k with
    | admin => rfl
    | credentials v => rfl
    | credentialCounter v =>
        exact (update_agree Account.counterEntry (by rw [← hy]; rfl) v).symm
    | archiveRecord v i => rfl
    | archiveIndex v =>
        exact (update_agree Account.indexEntry (by rw [← hy]; rfl) v).symm
  · intro k
    cases k with
    | admin => rfl
    | credentials v =>
        show _ = (Function.update book w y v).credentialsEntry v
        by_cases hv : v = w
        · subst hv
          rw [Function.update_self, hLive]
          exact Storage.get_set_self _ _ _
        · rw [Function.update_of_ne hv]
          apply Storage.get_set_of_ne
          simpa using hv
    | credentialCounter v => rfl
    | archiveRecord v i =>
        exact (update_agree (Account.slotEntry i) (by rw [← hy]; rfl) v).symm
    | archiveIndex v => rfl

/-! ## Steps along the order -/

section Evolution

variable [DecidableEq S]

/-- Before the bootstrap a call leaves the deployment fresh, or it is the
bootstrap and leaves the blank book. -/
theorem step_fresh (i : Invocation A (Call A S)) :
    (machine.step (store (S := S) .fresh) i).2 = store .fresh ∨
      ∃ a, (machine.step (store .fresh) i).2 =
        store (.installed a Book.blank) := by
  have hStep := step_transition (store .fresh) i
  generalize (machine.step (store .fresh) i).1 = answer at hStep
  generalize (machine.step (store .fresh) i).2 = s' at hStep
  cases hStep with
  | refused i e => exact .inl rfl
  | initialized env a hAdmin => exact .inr ⟨a, setAdmin_empty a⟩
  | accepted env w t sid d h hSigned hFresh =>
      exact absurd hSigned (not_signedBy_none _)
  | anchored env w root count time cid hSigned =>
      exact absurd hSigned (not_signedBy_none _)
  | pruned env w sids hSigned hGuard => exact absurd hSigned (not_signedBy_none _)

/-- The step lemma: a call that finds room in its counter leaves the storage of
a book that has grown from the one before. -/
theorem step_installed (a : A) (book : Book A S) (i : Invocation A (Call A S))
    (hRoom : RoomLeft (store (.installed a book)) i) :
    ∃ book', book.Grows book' ∧
      (machine.step (store (.installed a book)) i).2 =
        store (.installed a book') := by
  have hStep := step_transition (store (.installed a book)) i
  generalize (machine.step (store (.installed a book)) i).1 = answer at hStep
  generalize (machine.step (store (.installed a book)) i).2 = s' at hStep
  cases hStep with
  | refused i e => exact ⟨book, .refl book, rfl⟩
  | initialized env b hAdmin => cases hAdmin
  | accepted env w t sid d h hSigned hFresh =>
      have hBelow := hRoom.credential hSigned hFresh
      rw [dedupKeys_store] at hFresh
      rw [credentialCounter_store] at hBelow ⊢
      let e : Entry S := ⟨.ofNat (book w).issued + 1, t, sid, d, h⟩
      have hNext : e.number = (book w).issued + 1 := by
        show (UInt64.ofNat (book w).issued + 1).toNat = _
        rw [uint64_toNat_succ hBelow, (book w).issued_toNat]
      exact ⟨_, .update (.accept (book w) e hNext hFresh),
        acceptCredential_store a book w e hNext hFresh⟩
  | anchored env w root count time cid hSigned =>
      have hBelow := hRoom hSigned
      rw [archiveIndex_store, (book w).archives_toNat] at hBelow
      exact ⟨_, .update (.anchor (book w) _ hBelow),
        anchorArchive_store a book w ⟨root, count, time, cid⟩ hBelow⟩
  | pruned env w sids hSigned hGuard =>
      have hSome : (book w).archives ≠ [] := by
        intro hNone
        rw [archiveIndex_store, hNone] at hGuard
        exact hGuard rfl
      exact ⟨_, .update (.prune (book w) sids hSome),
        pruneCredentials_store a book w sids hSome⟩

/-! ## Moves of one account -/

/-- Calls can bring the account of `w` to `y`, and move no other. -/
def Attains (a : A) (book : Book A S) (w : A) (y : Account S) : Prop :=
  machine.Follows RoomLeft (store (.installed a book))
    (store (.installed a (Function.update book w y)))

namespace Attains

variable {a : A} {book : Book A S} {w : A} {x y : Account S}

theorem refl (a : A) (book : Book A S) (w : A) : Attains a book w (book w) := by
  unfold Attains
  rw [Function.update_eq_self]
  exact .refl _

/-- One more call. -/
theorem then_move (h : Attains a book w x)
    (hMove : ∀ book' : Book A S, book' w = x → Attains a book' w y) :
    Attains a book w y := by
  have hLast := hMove (Function.update book w x) (Function.update_self w x book)
  unfold Attains at hLast
  rw [Function.update_idem] at hLast
  exact h.trans hLast

/-- What is attained stays attained with one more credential, by the call that
adds it. -/
theorem accept (h : Attains a book w x) (e : Entry S)
    (hNext : e.number = x.issued + 1)
    (hFresh : e.key ∉ x.live.map Entry.key) :
    Attains a book w (x.accept e hNext hFresh) := by
  apply h.then_move
  intro book' hx
  subst hx
  have hBelow : (UInt64.ofNat (book' w).issued).toNat + 1 < UInt64.size := by
    rw [(book' w).issued_toNat, ← hNext]
    exact e.id.toNat_lt_size
  have hId : UInt64.ofNat (book' w).issued + 1 = e.id := by
    apply UInt64.toNat_inj.mp
    rw [uint64_toNat_succ hBelow, (book' w).issued_toNat, ← hNext]
    rfl
  have hMissing : ¬credentialExists (store (.installed a book')) w
      e.signalType e.sourceId = true := by
    rw [credentialExists_iff_mem, dedupKeys_store]
    exact hFresh
  apply Follows.step (i := ⟨⟨{a}, 0⟩, .addCredential w e.signalType e.sourceId
    e.eventDate e.dataHash⟩)
  · intro _
    rw [credentialCounter_store]
    exact hBelow
  · rw [step_addCredential, if_pos (by simp), if_neg hMissing,
      credentialCounter_store, hId]
    exact acceptCredential_store a book' w e hNext hFresh

/-- With one more archive, likewise. -/
theorem anchor (h : Attains a book w x) (r : ArchiveRecord)
    (hFits : x.archives.length + 1 < UInt32.size) :
    Attains a book w (x.anchor r hFits) := by
  apply h.then_move
  intro book' hx
  subst hx
  apply Follows.step (i := ⟨⟨{a}, 0⟩, .addArchiveRecord w r.merkleRoot
    r.credentialCount r.archivedAt r.ipfsCid⟩)
  · intro _
    rw [archiveIndex_store, (book' w).archives_toNat]
    exact hFits
  · rw [step_addArchiveRecord, if_pos (by simp)]
    exact anchorArchive_store a book' w r hFits

/-- And after a removal. -/
theorem prune (h : Attains a book w x) (sids : List HostString)
    (hSome : x.archives ≠ []) : Attains a book w (x.prune sids hSome) := by
  apply h.then_move
  intro book' hx
  subst hx
  have hGuard : ¬archiveIndex (store (.installed a book')) w = 0 := by
    intro hZero
    have hLength := congrArg UInt32.toNat hZero
    rw [archiveIndex_store, (book' w).archives_toNat] at hLength
    exact hSome (List.eq_nil_of_length_eq_zero hLength)
  apply Follows.step (i := ⟨⟨{a}, 0⟩, .removeCredentials w sids⟩) trivial
  rw [step_removeCredentials, if_pos (by simp), if_neg hGuard]
  exact pruneCredentials_store a book' w sids hSome

/-- The archives can be anchored first: they do not depend on the credentials,
and removals need one. -/
theorem anchorAll (h : Attains a book w x) (rest : List ArchiveRecord)
    (hFits : (x.archives ++ rest).length < UInt32.size) :
    ∃ z, Attains a book w z ∧ z.archives = x.archives ++ rest ∧
      z.issued = x.issued ∧ z.live = x.live ∧ z.opened = x.opened := by
  induction rest using List.reverseRecOn with
  | nil => exact ⟨x, h, (List.append_nil _).symm, rfl, rfl, rfl⟩
  | append_singleton rest r ih =>
      rw [← List.append_assoc, List.length_append] at hFits
      obtain ⟨z, hz, hArchives, hRest⟩ := ih (Nat.lt_of_succ_lt hFits)
      rw [← hArchives] at hFits
      refine ⟨z.anchor r hFits, hz.anchor r hFits, ?_, hRest⟩
      show z.archives ++ [r] = _
      rw [hArchives, List.append_assoc]

/-- A number that is to be live is issued to its credential. The key is new:
what is live now is live in `y`, where keys are distinct. -/
theorem issueLive (h : Attains a book w x)
    (hLive : x.live = y.live.filter (fun e => e.number ≤ x.issued))
    {e : Entry S} (he : e ∈ y.live) (hNext : e.number = x.issued + 1) :
    ∃ z, Attains a book w z ∧ z.archives = x.archives ∧
      z.issued = x.issued + 1 ∧
      z.live = y.live.filter (fun e => e.number ≤ x.issued + 1) := by
  have hFresh : e.key ∉ x.live.map Entry.key := by
    intro hMem
    obtain ⟨b, hb, hKey⟩ := List.mem_map.mp hMem
    rw [hLive, List.mem_filter, decide_eq_true_eq] at hb
    have hEq : b = e := List.inj_on_of_nodup_map y.distinct hb.1 he hKey
    rw [hEq, hNext] at hb
    omega
  refine ⟨x.accept e hNext hFresh, h.accept e hNext hFresh, rfl, rfl, ?_⟩
  show x.live ++ [e] = _
  have hOne := y.increasing.filter_eq_singleton he
  rw [hNext] at hOne
  rw [y.increasing.filter_le_succ, ← hLive, hOne]

/-- A number that is to be missing is issued to a credential that is removed
at once. -/
theorem issueDropped [Inhabited S] (h : Attains a book w x)
    (hLive : x.live = y.live.filter (fun e => e.number ≤ x.issued))
    (hSome : x.archives ≠ []) (hLimit : x.issued + 1 < UInt64.size)
    (hMissing : ∀ e ∈ y.live, e.number ≠ x.issued + 1) :
    ∃ z, Attains a book w z ∧ z.archives = x.archives ∧
      z.issued = x.issued + 1 ∧
      z.live = y.live.filter (fun e => e.number ≤ x.issued + 1) := by
  obtain ⟨sid, hSid⟩ := Infinite.exists_notMem_finset
    (x.live.map Entry.sourceId).toFinset
  rw [List.mem_toFinset] at hSid
  let e : Entry S := ⟨.ofNat (x.issued + 1), default, sid, 0, []⟩
  have hNext : e.number = x.issued + 1 := UInt64.toNat_ofNat_of_lt' hLimit
  have hFresh : e.key ∉ x.live.map Entry.key := by
    intro hMem
    obtain ⟨b, hb, hKey⟩ := List.mem_map.mp hMem
    exact hSid (List.mem_map.mpr ⟨b, hb, congrArg Prod.snd hKey⟩)
  refine ⟨_, (h.accept e hNext hFresh).prune [sid] hSome, rfl, rfl, ?_⟩
  show dropBy Entry.sourceId [sid] (x.live ++ [e]) = _
  have hKept : dropBy Entry.sourceId [sid] x.live = x.live := by
    apply dropBy_eq_self
    intro b hb hListed
    rw [List.mem_singleton] at hListed
    exact hSid (List.mem_map.mpr ⟨b, hb, hListed⟩)
  have hDropped : dropBy Entry.sourceId [sid] [e] = [] := by
    simp [dropBy, e]
  have hNone : y.live.filter (fun e => e.number = x.issued + 1) = [] := by
    rw [List.filter_eq_nil_iff]
    intro b hb
    simpa using hMissing b hb
  rw [dropBy_append, hKept, hDropped, y.increasing.filter_le_succ, ← hLive,
    hNone]

/-- Numbers are issued up to the last one of `y`: those that are to be live to
their credentials, the others to a credential that is removed at once. -/
theorem issueAll [Inhabited S] (n : Nat) (h : Attains a book w x)
    (hArchives : x.archives = y.archives) (hIssued : x.issued + n = y.issued)
    (hLive : x.live = y.live.filter (fun e => e.number ≤ x.issued))
    (hOpened : 0 < y.issued ∨ x.opened = y.opened) : Attains a book w y := by
  induction n generalizing x with
  | zero =>
      have hAll : y.live.filter (fun e => e.number ≤ x.issued) = y.live := by
        rw [List.filter_eq_self]
        intro e he
        have hRange := y.range e he
        simp only [decide_eq_true_eq]
        omega
      have hSame : x.opened = y.opened := by
        rcases hOpened with hPos | hSame
        · have hx : x.opened = true := by
            by_contra hNot
            have hZero := x.closed (Bool.eq_false_iff.mpr hNot)
            omega
          have hy : y.opened = true := by
            by_contra hNot
            have hZero := y.closed (Bool.eq_false_iff.mpr hNot)
            omega
          rw [hx, hy]
        · exact hSame
      have hEq : x = y :=
        Account.ext hArchives hIssued (hLive.trans hAll) hSame
      exact hEq ▸ h
  | succ n ih =>
      have hNextLe : x.issued + 1 ≤ y.issued := by omega
      have hLimit := y.issuedFits
      by_cases hFound : ∃ e ∈ y.live, e.number = x.issued + 1
      · obtain ⟨e, he, hNext⟩ := hFound
        obtain ⟨z, hz, hzArchives, hzIssued, hzLive⟩ := h.issueLive hLive he hNext
        exact ih hz (hzArchives.trans hArchives) (by omega)
          (by rw [hzLive, hzIssued]) (.inl (by omega))
      · have hMissing : ∀ e ∈ y.live, e.number ≠ x.issued + 1 :=
          fun e he hEq => hFound ⟨e, he, hEq⟩
        have hSome : x.archives ≠ [] := by
          intro hNone
          rw [hArchives] at hNone
          obtain ⟨e, he, hEq⟩ := y.increasing.exists_of_length y.positive y.range
            (y.unpruned hNone) (Nat.succ_pos x.issued) hNextLe
          exact hMissing e he hEq
        obtain ⟨z, hz, hzArchives, hzIssued, hzLive⟩ :=
          h.issueDropped hLive hSome (by omega) hMissing
        exact ih hz (hzArchives.trans hArchives) (by omega)
          (by rw [hzLive, hzIssued]) (.inl (by omega))

/-- Every growth of an account can be brought about: anchor, remove what is not
to stay, and then issue the numbers one by one. -/
theorem of_grows [Inhabited S] (h : (book w).Grows y) :
    Attains a book w y := by
  obtain ⟨rest, hRest⟩ := h.archives
  have hFits := y.archivesFit
  rw [← hRest] at hFits
  obtain ⟨x, hx, hArchives, hIssued, hLive, hOpened⟩ :=
    (refl a book w).anchorAll rest hFits
  rw [hRest] at hArchives
  obtain ⟨n, hn⟩ := Nat.exists_eq_add_of_le h.issued
  by_cases hNone : y.archives = []
  · -- nothing was forgotten, and nothing is removed
    apply hx.issueAll n hArchives (by omega)
    · rw [hLive, hIssued, h.live_filter_of_unarchived hNone]
    · cases hClosed : y.opened with
      | true =>
          left
          have hNotZero : y.issued ≠ 0 := fun hZero =>
            y.untouched hClosed hZero hNone
          omega
      | false =>
          right
          rw [hOpened, ← Bool.not_eq_true]
          intro hOpen
          rw [h.opened hOpen] at hClosed
          cases hClosed
  · cases hClosed : y.opened with
    | true =>
        obtain ⟨sids, hFilter⟩ := h.live_filter
        have hSome : x.archives ≠ [] := hArchives ▸ hNone
        apply (hx.prune sids hSome).issueAll n hArchives
        · show x.issued + n = y.issued
          omega
        · show dropBy Entry.sourceId sids x.live =
            y.live.filter fun e => e.number ≤ x.issued
          rw [hLive, hIssued, hFilter]
        · exact .inr hClosed.symm
    | false =>
        -- a closed account issued nothing
        have hZero := y.closed hClosed
        have hxZero : x.issued = 0 := by omega
        apply hx.issueAll n hArchives (by omega)
        · rw [x.live_eq_nil hxZero, y.live_eq_nil hZero]
          rfl
        · right
          rw [hOpened, hClosed, ← Bool.not_eq_true]
          intro hOpen
          rw [h.opened hOpen] at hClosed
          cases hClosed

end Attains

/-- The credential store is its book of accounts: calls with room move the book
as it may grow, and every growth is a run of such calls. -/
theorem bookEncoding [Inhabited S] :
    Encoding machine RoomLeft (store (A := A) (S := S))
      (Deployment.Evolves Book.blank fun _ => Book.Grows) := by
  apply Deployment.encoding
  · exact fun _ => Book.Grows.refl
  · exact fun _ => Book.Grows.trans
  · exact fun i _ => step_fresh i
  · exact step_installed
  · exact fun a => Follows.step (i := ⟨⟨∅, 0⟩, .initializeAdmin a⟩) trivial
      (setAdmin_empty a)
  · intro a book book' hGrows
    apply hGrows.induction (P := fun book book' => machine.Follows RoomLeft
      (store (.installed a book)) (store (.installed a book')))
      fun _ => Account.Grows.refl
    · exact fun book => .refl _
    · exact fun _ _ _ => Follows.trans
    · exact fun book w y => Attains.of_grows

/-- Every run leaves a written book. -/
theorem run_store [Inhabited S] {is : List (Invocation A (Call A S))}
    (hRoom : machine.Each RoomLeft is) : ∃ c, machine.run is = store c := by
  obtain ⟨c, -, hc⟩ := bookEncoding.run (b := .fresh) hRoom
  exact ⟨c, hc⟩

/-- **The evolution of credentials.** While the counters have room, from a
written book exactly those storages can be reached that hold a book in which
finitely many accounts grew. What an account can grow to is a matter of the
account alone. -/
theorem credentials_follow_iff [Inhabited S] (b : Deployment A (Book A S))
    (t : Store A S) :
    machine.Follows RoomLeft (store b) t ↔
      ∃ c, b.Evolves Book.blank (fun _ => Book.Grows) c ∧ store c = t :=
  bookEncoding.follows_iff b t

end Evolution

end ForgePass.Contracts.CredentialStore
