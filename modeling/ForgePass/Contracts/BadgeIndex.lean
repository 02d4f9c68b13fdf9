import ForgePass.Contracts.SoulboundNftSpec
import ForgePass.Verified.Counter
import ForgePass.Verified.Registry

/-!
# The badge indexes agree

The abstract state of the contract is the sequence of badges minted so far.
`BadgeBook` ties the four redundant places a mint writes to that one sequence:
the counter is its length, badges by id and ids by wallet are a `Registry` of
it, and a flag is set for each wallet and milestone that occurs in it.

A mint appends one badge and keeps the book.  What the readers return, and
that they agree with each other, is then read off the sequence.
-/

namespace ForgePass.Contracts.SoulboundNft

open ForgePass.Verified

variable {A M : Type} [DecidableEq A] [DecidableEq M]

/-- A call with its answer. -/
abbrev Event (A M : Type) := Invocation A (Call A M) × Answer

/-- The badge a call mints, if any: its fields are the arguments of the call,
its number is the answer. A refused mint leaves none. -/
def mintEntry : Event A M → Option (BadgeRecord A M)
  | (⟨_, .mint w m cid time⟩, .ok (.badgeId id)) => some ⟨id, w, m, cid, time⟩
  | _ => none

/-- The badges of the accepted `mint` calls, in call order, each under the id
its call returned. -/
def mintedBadges (history : List (Event A M)) : List (BadgeRecord A M) :=
  history.filterMap mintEntry

/-- The badge counter is below its maximum. From the maximum on the next id is
0 in the release build, and ids are handed out again. -/
def CounterBelowMax (s : Store A M) : Prop :=
  (badgeCounter s).toNat + 1 < UInt64.size

instance : DecidablePred (CounterBelowMax (A := A) (M := M)) := fun s =>
  inferInstanceAs (Decidable ((badgeCounter s).toNat + 1 < UInt64.size))

/-- The key that at most one badge may carry. -/
def badgeKey (r : BadgeRecord A M) : A × M := (r.wallet, r.milestoneType)

/-- The four places a mint writes, as indexes of the minted sequence: the badge
by its number, the numbers of a wallet in the order of minting, the counter as
the length, the flag as the question whether the key occurs.

This is the invariant of the contract below the maximum of its counter; that no
key occurs twice is part of it. -/
structure BadgeBook (s : Store A M) (log : List (BadgeRecord A M)) : Prop where
  registry : Registry BadgeRecord.badgeId BadgeRecord.wallet (getBadge s)
    (walletBadges s) log
  numbered : Numbered (fun r => r.badgeId.toNat) log
  counter : (badgeCounter s).toNat = log.length
  flags : ∀ w m, hasBadge s w m = true ↔ (w, m) ∈ log.map badgeKey
  single : (log.map badgeKey).Nodup

namespace BadgeBook

variable {s s' : Store A M} {log : List (BadgeRecord A M)}

/-- Fresh storage is the book of the empty sequence. -/
theorem fresh : BadgeBook (A := A) (M := M) machine.init [] where
  registry := ⟨by simp, by simp [getBadge, machine, guestMachine],
    by simp [walletBadges, machine, guestMachine]⟩
  numbered := Numbered.nil
  counter := rfl
  flags := by simp [hasBadge, machine, guestMachine]
  single := by simp

/-- Issuing the next badge appends it to the book. This is the step of the
invariant; it needs a counter below its maximum and a key that is new. -/
theorem issue (h : BadgeBook s log) (hBelow : CounterBelowMax s)
    {r : BadgeRecord A M} (hId : r.badgeId = badgeCounter s + 1)
    (hFresh : hasBadge s r.wallet r.milestoneType = false) :
    BadgeBook (issueBadge s r) (log ++ [r]) := by
  have hNext : r.badgeId.toNat = log.length + 1 := by
    rw [hId, uint64_toNat_succ hBelow, h.counter]
  have hNewId : r.badgeId ∉ log.map BadgeRecord.badgeId := by
    intro hMem
    obtain ⟨old, hOld, hEq⟩ := List.mem_map.mp hMem
    have hRange := (h.numbered.range hOld).2
    rw [hEq] at hRange
    omega
  have hNewKey : badgeKey r ∉ log.map badgeKey := by
    intro hMem
    have hFlag := (h.flags r.wallet r.milestoneType).mpr hMem
    rw [hFresh] at hFlag
    cases hFlag
  refine ⟨?_, h.numbered.concat hNext, ?_, ?_, ?_⟩
  · exact h.registry.concat hNewId (fun k => getBadge_issueBadge s k r)
      (fun o => walletBadges_issueBadge s o r)
  · rw [badgeCounter_issueBadge, hNext]
    simp
  · intro w m
    rw [hasBadge_issueBadge, Bool.or_eq_true, h.flags, List.map_append,
      List.mem_append, List.map_singleton, List.mem_singleton,
      decide_eq_true_eq, or_comm]
    simp [badgeKey]
  · rw [List.map_append, List.map_singleton, ← List.concat_eq_append]
    exact h.single.concat hNewKey

/-! ## What the readers return -/

section Readers

omit [DecidableEq M]

/-- The scan of a wallet returns the badges minted to it: every id it meets has
a badge, so the reader skips none. -/
theorem getBadgesForWallet (h : BadgeBook s log) (w : A) :
    getBadgesForWallet s w = log.filter fun r => r.wallet = w := by
  rw [getBadgesForWallet_eq]
  exact h.registry.scan w

/-- A wallet's index holds an id of a milestone exactly where such a badge was
minted to the wallet. -/
theorem mem_walletBadges (h : BadgeBook s log) (w : A) (m : M) (id : UInt64) :
    (id ∈ walletBadges s w ∧
        ∃ r, getBadge s id = some r ∧ r.milestoneType = m) ↔
      ∃ r ∈ log, r.badgeId = id ∧ badgeKey r = (w, m) := by
  rw [h.registry.mem_index]
  constructor
  · rintro ⟨⟨r, hr, hw⟩, r', hr', hm⟩
    rw [hr, Option.some.injEq] at hr'
    subst hr'
    obtain ⟨hMem, hId⟩ := (h.registry.found id r).mp hr
    exact ⟨r, hMem, hId, by rw [badgeKey, hw, hm]⟩
  · rintro ⟨r, hMem, hId, hKey⟩
    have hr := (h.registry.found id r).mpr ⟨hMem, hId⟩
    rw [badgeKey, Prod.mk.injEq] at hKey
    exact ⟨⟨r, hr, hKey.1⟩, r, hr, hKey.2⟩

/-- The ids with a badge are those from 1 to the counter. -/
theorem getBadge_isSome_iff (h : BadgeBook s log) (id : UInt64) :
    (getBadge s id).isSome = true ↔ 1 ≤ id ∧ id ≤ badgeCounter s := by
  have hCounter := h.counter
  rw [Option.isSome_iff_exists, UInt64.le_iff_toNat_le, UInt64.le_iff_toNat_le,
    UInt64.toNat_one]
  simp only [h.registry.found]
  constructor
  · rintro ⟨r, hMem, rfl⟩
    have hRange := h.numbered.range hMem
    omega
  · rintro ⟨hLow, hHigh⟩
    obtain ⟨r, hMem, hId⟩ := h.numbered.exists_of_range hLow (by omega)
    exact ⟨r, hMem, UInt64.toNat_inj.mp hId⟩

/-- A wallet lists its badges by increasing id, hence without repetition. -/
theorem walletBadges_increasing (h : BadgeBook s log) (w : A) :
    (walletBadges s w).Pairwise (· < ·) := by
  rw [h.registry.indexed, List.pairwise_map]
  apply (h.numbered.increasing.sublist List.filter_sublist).imp
  intro a b hLt
  exact UInt64.lt_iff_toNat_lt.mpr hLt

/-- No two badges of a wallet are for one milestone. -/
theorem milestones_nodup (h : BadgeBook s log) (w : A) :
    ((SoulboundNft.getBadgesForWallet s w).map
      BadgeRecord.milestoneType).Nodup := by
  rw [h.getBadgesForWallet]
  have hKeys := h.single.sublist
    ((List.filter_sublist (p := fun r => r.wallet = w)).map badgeKey)
  have hPairs : (log.filter fun r => r.wallet = w).map badgeKey =
      ((log.filter fun r => r.wallet = w).map
        BadgeRecord.milestoneType).map fun m => (w, m) := by
    rw [List.map_map]
    refine List.map_congr_left fun r hr => ?_
    have hw := (List.mem_filter.mp hr).2
    rw [decide_eq_true_eq] at hw
    simp [badgeKey, hw]
  rw [hPairs] at hKeys
  exact hKeys.of_map _

/-- The flag says that the wallet lists an id whose badge is for the milestone,
and there is only one such id. -/
theorem hasBadge_iff_unique (h : BadgeBook s log) (w : A) (m : M) :
    hasBadge s w m = true ↔ ∃! id, id ∈ walletBadges s w ∧
      ∃ r, getBadge s id = some r ∧ r.milestoneType = m := by
  simp only [h.flags, h.mem_walletBadges, List.mem_map]
  constructor
  · rintro ⟨r, hMem, hKey⟩
    refine ⟨r.badgeId, ⟨r, hMem, rfl, hKey⟩, ?_⟩
    rintro id ⟨r', hMem', rfl, hKey'⟩
    have hEq : r' = r := List.inj_on_of_nodup_map h.single hMem' hMem
      (hKey'.trans hKey.symm)
    rw [hEq]
  · rintro ⟨id, ⟨r, hMem, -, hKey⟩, -⟩
    exact ⟨r, hMem, hKey⟩

theorem not_hasBadge_iff (h : BadgeBook s log) (w : A) (m : M) :
    hasBadge s w m = false ↔ ∀ id ∈ walletBadges s w, ∀ r,
      getBadge s id = some r → r.milestoneType ≠ m := by
  rw [← Bool.not_eq_true, h.flags, List.mem_map]
  constructor
  · intro hNone id hId r hr hm
    obtain ⟨r', hMem, -, hKey⟩ :=
      (h.mem_walletBadges w m id).mp ⟨hId, r, hr, hm⟩
    exact hNone ⟨r', hMem, hKey⟩
  · rintro hNone ⟨r, hMem, hKey⟩
    obtain ⟨hId, r', hr', hm⟩ :=
      (h.mem_walletBadges w m r.badgeId).mpr ⟨r, hMem, rfl, hKey⟩
    exact hNone _ hId r' hr' hm

end Readers

/-- The flag is a scan of the wallet's badges. -/
theorem hasBadge_eq_scan (h : BadgeBook s log) (w : A) (m : M) :
    hasBadge s w m =
      (SoulboundNft.getBadgesForWallet s w).any fun r =>
        r.milestoneType = m := by
  rw [Bool.eq_iff_iff, h.flags, List.any_eq_true, h.getBadgesForWallet,
    List.mem_map]
  simp only [List.mem_filter, decide_eq_true_eq, badgeKey, Prod.mk.injEq,
    and_assoc]

end BadgeBook

/-! ## Every reachable store -/

section Entries

omit [DecidableEq A] [DecidableEq M]

theorem mintEntry_refused (i : Invocation A (Call A M))
    (e : Failure ContractError) :
    mintEntry (i, .error e) = none := by
  obtain ⟨env, call⟩ := i
  cases call with
  | initializeAdmin a => rfl
  | mint w m cid time => rfl

theorem mintedBadges_concat (history : List (Event A M)) (e : Event A M) :
    mintedBadges (history ++ [e]) =
      mintedBadges history ++ (mintEntry e).toList :=
  Machine.filterMap_concat _ _ _

end Entries

/-- One call keeps the book, extended by the badge it mints.  Only a mint needs
room in the counter. -/
theorem badgeBook_step {s s' : Store A M} {history : List (Event A M)}
    {i : Invocation A (Call A M)} {answer : Answer}
    (hStep : Transition s i answer s')
    (hBelow : mintEntry (i, answer) ≠ none → CounterBelowMax s)
    (h : BadgeBook s (mintedBadges history)) :
    BadgeBook s' (mintedBadges (history ++ [(i, answer)])) := by
  rw [mintedBadges_concat]
  cases hStep with
  | refused i e =>
      rw [mintEntry_refused, Option.toList_none, List.append_nil]
      exact h
  | initialized env a hAdmin =>
      simp only [mintEntry, Option.toList_none, List.append_nil]
      refine ⟨h.registry, h.numbered, ?_, ?_, h.single⟩
      · rw [badgeCounter_setAdmin]
        exact h.counter
      · intro w m
        rw [hasBadge_setAdmin]
        exact h.flags w m
  | minted env w m cid time hSigned hFresh =>
      exact h.issue (hBelow (Option.some_ne_none _)) rfl hFresh

/-- The run lemma: in every reachable state the three indexes describe the log
of the accepted mints. -/
theorem badgeBook_run {is : List (Invocation A (Call A M))}
    (hBelow : machine.Along CounterBelowMax is) :
    BadgeBook (machine.run is) (mintedBadges (machine.history is)) :=
  machine.history_invariant_along
    (R := fun s history => BadgeBook s (mintedBadges history))
    BadgeBook.fresh
    (fun s _ i hP _ h => badgeBook_step (step_transition s i) (fun _ => hP) h)
    hBelow

/-- Counter, badges by id, ids by wallet and duplicate flags agree. Nothing
here mentions the history: every field relates what two or more readers return
in one state. -/
structure IndexesAgree (s : Store A M) : Prop where
  /-- Badges are present for the ids `1 .. counter`. -/
  present : ∀ id, (getBadge s id).isSome = true ↔ 1 ≤ id ∧ id ≤ badgeCounter s
  named : ∀ id r, getBadge s id = some r → r.badgeId = id
  /-- An id is once in the list of its badge's wallet, and nowhere else. -/
  listed : ∀ w id, (walletBadges s w).count id =
    if (getBadge s id).map BadgeRecord.wallet = some w then 1 else 0
  increasing : ∀ w, (walletBadges s w).Pairwise (· < ·)
  flagged : ∀ w m, hasBadge s w m = true ↔ ∃! id, id ∈ walletBadges s w ∧
    ∃ r, getBadge s id = some r ∧ r.milestoneType = m
  unflagged : ∀ w m, hasBadge s w m = false ↔ ∀ id ∈ walletBadges s w, ∀ r,
    getBadge s id = some r → r.milestoneType ≠ m
  scanned : ∀ w m, hasBadge s w m =
    (getBadgesForWallet s w).any fun r => r.milestoneType = m
  /-- The scan finds a badge for every id of the list. -/
  unskipped : ∀ w,
    (getBadgesForWallet s w).map BadgeRecord.badgeId = walletBadges s w
  single : ∀ w,
    ((getBadgesForWallet s w).map BadgeRecord.milestoneType).Nodup

/-- **Index agreement** in every state reached with the counter below its
maximum: badges are stored under the ids up to the counter, each id is listed
once, by the wallet of its badge; the flag says whether one of the wallet's
badges is for the milestone, and there is never more than one. -/
theorem indexes_agree (is : List (Invocation A (Call A M)))
    (hBelow : machine.Along CounterBelowMax is) :
    IndexesAgree (machine.run is) := by
  have h := badgeBook_run hBelow
  exact
    { present := h.getBadge_isSome_iff
      named := fun id r hr => ((h.registry.found id r).mp hr).2
      listed := h.registry.count_index
      increasing := h.walletBadges_increasing
      flagged := h.hasBadge_iff_unique
      unflagged := h.not_hasBadge_iff
      scanned := h.hasBadge_eq_scan
      unskipped := fun w => by
        rw [getBadgesForWallet_eq]
        exact h.registry.scan_number w
      single := h.milestones_nodup }

/-- Two wallets under administrator 0, one rejected duplicate. -/
def sampleMints : List (Invocation Nat (Call Nat MilestoneType)) :=
  let env : Env Nat := ⟨{0}, 100⟩
  [⟨env, .initializeAdmin 0⟩,
    ⟨env, .mint 7 .firstPr [0xaa] 10⟩,
    ⟨env, .mint 7 .firstPr [0xbb] 11⟩,
    ⟨env, .mint 8 .firstPr [0xcc] 12⟩,
    ⟨env, .mint 7 .firstContract [0xdd] 13⟩]

theorem indexes_agree_sampleMints :
    IndexesAgree (machine.run sampleMints) ∧
      walletBadges (machine.run sampleMints) 7 = [1, 3] ∧
      walletBadges (machine.run sampleMints) 8 = [2] :=
  ⟨indexes_agree sampleMints (by decide), by decide, by decide⟩

end ForgePass.Contracts.SoulboundNft
