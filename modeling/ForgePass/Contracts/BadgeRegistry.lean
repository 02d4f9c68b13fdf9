import ForgePass.Contracts.BadgeIndex
import ForgePass.Contracts.CounterLimits
import ForgePass.Verified.KeyedList
import ForgePass.Verified.Refinement

/-!
# What the badge contract is for

The contract without its storage: a roll of mints, at most one for each wallet
and milestone.  A badge has no number of its own; it is numbered by its place
on the roll, modulo 2 ^ 64.
-/

namespace ForgePass.Contracts.SoulboundNft

open ForgePass.Verified
open ForgePass.Verified.Machine

variable {A M : Type}

/-- What a mint puts on record. The number is not among the fields: it is the
place of the mint on the roll. -/
structure Mint (A M : Type) where
  wallet : A
  milestoneType : M
  ipfsCid : HostString
  mintedAt : UInt64

/-- What no two mints share. -/
def Mint.key (r : Mint A M) : A × M := (r.wallet, r.milestoneType)

/-- The badge of the mint that stands behind `n` others, under its place modulo
2 ^ 64. -/
def Mint.badge (n : Nat) (r : Mint A M) : BadgeRecord A M :=
  ⟨.ofNat (n + 1), r.wallet, r.milestoneType, r.ipfsCid, r.mintedAt⟩

/-- The badges of a roll, numbered by their places, from 1 on and modulo 2 ^
64: as the counter numbers them. -/
def badgesOf (roll : List (Mint A M)) : List (BadgeRecord A M) :=
  roll.mapIdx Mint.badge

theorem badgesOf_concat (roll : List (Mint A M)) (r : Mint A M) :
    badgesOf (roll ++ [r]) = badgesOf roll ++ [r.badge roll.length] :=
  List.mapIdx_concat

/-- The administrator that a call would install. -/
def install (i : Invocation A (Call A M)) : Option A :=
  match i.call with
  | .initializeAdmin a => some a
  | _ => none

variable [DecidableEq A] [DecidableEq M]

/-- What a call does to the roll, under the eye of the administrator `a`.  A
new mint is answered its place modulo 2 ^ 64. -/
def operate (a : A) (roll : List (Mint A M)) (i : Invocation A (Call A M)) :
    Answer × List (Mint A M) :=
  match i.call with
  | .initializeAdmin _ => (.error (.error .alreadyInitialized), roll)
  | .mint w m cid time =>
      if a ∈ i.env.auths then
        if ∃ r ∈ roll, r.key = (w, m) then
          (.error (.error .badgeAlreadyMinted), roll)
        else (.ok (.badgeId (.ofNat (roll.length + 1))),
          roll ++ [⟨w, m, cid, time⟩])
      else (.error .trap, roll)

/-- The contract as a roll of mints. -/
def registry :
    Machine (Deployment A (List (Mint A M))) (Invocation A (Call A M)) Answer :=
  bootstrapped install (.ok .unit) (fun _ => .error (.error .notInitialized))
    [] operate

/-! ## The contract keeps the roll -/

/-- The badge that was minted last under a number. Under a counter that wraps
several mints may share one, and the last one has overwritten the others. -/
def latest (badges : List (BadgeRecord A M)) (id : UInt64) :
    Option (BadgeRecord A M) :=
  badges.reverse.find? fun b => b.badgeId = id

/-- Storage says of the roll what it can, under a counter that wraps: the
length only modulo 2 ^ 64, and under each number the latest badge. The flags
and the lists of the wallets forget nothing. -/
structure Kept (a : A) (s : Store A M) (roll : List (Mint A M)) : Prop where
  admin : adminOf s = some a
  counter : badgeCounter s = .ofNat roll.length
  held : ∀ w m, hasBadge s w m = true ↔ ∃ r ∈ roll, r.key = (w, m)
  index : ∀ w, walletBadges s w =
    ((badgesOf roll).filter fun b => b.wallet = w).map BadgeRecord.badgeId
  badge : ∀ id, getBadge s id = latest (badgesOf roll) id

namespace Kept

variable {a : A} {s : Store A M} {roll : List (Mint A M)}

/-- Storage after the bootstrap keeps the empty roll. -/
theorem installed (a : A) :
    Kept (M := M) a ((Ledger.empty : Store A M).setInstance .admin a) [] where
  admin := by simp
  counter := by
    rw [badgeCounter_setAdmin]
    rfl
  held w m := by
    rw [hasBadge_setAdmin]
    show false = true ↔ _
    simp
  index _ := rfl
  badge _ := rfl

/-- The step lemma: issuing a badge keeps the roll with one mint more, also
where the counter wraps and the badge replaces an earlier one. -/
theorem mint (h : Kept a s roll) (w : A) (m : M) (cid : HostString)
    (time : UInt64) :
    Kept a (issueBadge s ⟨badgeCounter s + 1, w, m, cid, time⟩)
      (roll ++ [⟨w, m, cid, time⟩]) := by
  have hBadge : (⟨badgeCounter s + 1, w, m, cid, time⟩ : BadgeRecord A M) =
      Mint.badge roll.length ⟨w, m, cid, time⟩ := by
    rw [h.counter, ← UInt64.ofNat_one, ← UInt64.ofNat_add]
    rfl
  rw [hBadge]
  refine ⟨?_, ?_, ?_, ?_, ?_⟩
  · rw [adminOf_issueBadge, h.admin]
  · rw [badgeCounter_issueBadge, List.length_append]
    rfl
  · intro v l
    rw [hasBadge_issueBadge, Bool.or_eq_true, h.held, decide_eq_true_eq]
    simp only [List.mem_append, List.mem_singleton, or_and_right, exists_or,
      exists_eq_left]
    rw [or_comm, Mint.key, Prod.mk.injEq, eq_comm (a := w), eq_comm (a := m)]
    rfl
  · intro v
    rw [walletBadges_issueBadge, badgesOf_concat, List.filter_append,
      List.map_append, h.index]
    by_cases hv : v = w
    · subst hv
      simp [Mint.badge]
    · have hv' : ¬w = v := fun hEq => hv hEq.symm
      simp [Mint.badge, hv, hv']
  · intro id
    rw [getBadge_issueBadge, badgesOf_concat, h.badge]
    unfold latest
    rw [List.reverse_append, List.reverse_singleton, List.singleton_append,
      List.find?_cons]
    by_cases hId : id = (Mint.badge roll.length ⟨w, m, cid, time⟩).badgeId
    · simp [hId]
    · have hId' : ¬(Mint.badge roll.length ⟨w, m, cid, time⟩).badgeId = id :=
        fun hEq => hId hEq.symm
      simp [hId, hId']

end Kept

/-- One call on both sides: contract and roll give the same answer, and the
storage afterwards keeps the roll afterwards. -/
theorem step_roll {a : A} {s : Store A M} {roll : List (Mint A M)}
    (h : Kept a s roll) (i : Invocation A (Call A M)) :
    Related Eq (Kept a) (machine.step s i) (operate a roll i) := by
  obtain ⟨env, call⟩ := i
  cases call with
  | initializeAdmin b =>
      rw [step_initializeAdmin, h.admin]
      exact ⟨rfl, h⟩
  | mint w m cid time =>
      have hCounter : badgeCounter s + 1 = .ofNat (roll.length + 1) := by
        rw [h.counter, UInt64.ofNat_add]
        rfl
      rw [step_mint, h.admin]
      simp only [signedBy_some, h.held]
      refine .ite (fun _ => ?_) fun _ => ⟨rfl, h⟩
      refine .ite (fun _ => ⟨rfl, h⟩) fun _ => ⟨?_, h.mint w m cid time⟩
      rw [hCounter]

/-- Whatever comes before the bootstrap is refused as uninitialised. -/
theorem bootstrap_early {i : Invocation A (Call A M)} (h : install i = none) :
    machine.step machine.init i =
      (.error (.error .notInitialized), machine.init) := by
  obtain ⟨env, call⟩ := i
  cases call with
  | initializeAdmin b => cases h
  | mint w m cid time => exact step_mint _ env w m cid time

/-- The bootstrap stores the administrator and nothing else. -/
theorem bootstrap_install {i : Invocation A (Call A M)} {a : A}
    (h : install i = some a) :
    machine.step machine.init i =
      (.ok .unit, (Ledger.empty : Store A M).setInstance .admin a) := by
  obtain ⟨env, call⟩ := i
  cases call with
  | initializeAdmin b =>
      obtain rfl : b = a := Option.some.inj h
      rw [step_initializeAdmin]
      rfl
  | mint w m cid time => cases h

/-- Whether the counter wraps or not, the contract answers as the roll does. -/
theorem refines_registryWrapped :
    Refines machine (registry (A := A) (M := M)) Any
      (Stands machine.init Kept) := by
  apply Refines.bootstrapped
  · exact fun i => bootstrap_early
  · intro i a h
    rw [bootstrap_install h]
    exact ⟨rfl, .installed a⟩
  · exact fun a s roll i _ h => step_roll h i

/-- The counter never wrapped. -/
def Fits (roll : List (Mint A M)) : Prop := roll.length < UInt64.size

/-- A call that finds room in the badge counter leaves a roll that still fits
under it. -/
theorem operate_fits {a : A} {s : Store A M} {roll : List (Mint A M)}
    (h : Kept a s roll) (hFits : Fits roll) {i : Invocation A (Call A M)}
    (hRoom : RoomLeft s i) : Fits (operate a roll i).2 := by
  obtain ⟨env, call⟩ := i
  unfold operate
  cases call with
  | initializeAdmin b => exact hFits
  | mint w m cid time =>
      by_cases hAuth : a ∈ env.auths
      · simp only [if_pos hAuth]
        by_cases hHeld : ∃ r ∈ roll, r.key = (w, m)
        · rw [if_pos hHeld]
          exact hFits
        · have hFresh : hasBadge s w m = false := by
            rw [← Bool.not_eq_true, h.held]
            exact hHeld
          have hBelow := hRoom ⟨⟨a, h.admin, hAuth⟩, hFresh⟩
          rw [h.counter, UInt64.toNat_ofNat_of_lt' hFits] at hBelow
          rw [if_neg hHeld]
          show (roll ++ [_]).length < UInt64.size
          rw [List.length_append]
          exact hBelow
      · simp only [if_neg hAuth]
        exact hFits

/-- The contract is its roll, as long as the badge counter has room. -/
theorem refines_registry : Refines machine (registry (A := A) (M := M)) RoomLeft
    (Stands machine.init fun a s roll => Kept a s roll ∧ Fits roll) := by
  apply Refines.bootstrapped
  · exact fun i => bootstrap_early
  · intro i a h
    rw [bootstrap_install h]
    exact ⟨rfl, .installed a, (by decide : 0 < UInt64.size)⟩
  · rintro a s roll i hRoom ⟨h, hFits⟩
    have hStep := step_roll h i
    exact ⟨hStep.answer, hStep.state, operate_fits h hFits hRoom⟩

/-! ## Readers -/

/-- What readers return is read off the roll. This is the picture below the
maximum, where each number belongs to one badge. -/
structure Reads (s : Store A M) (d : Deployment A (List (Mint A M))) :
    Prop where
  admin : adminOf s = d.admin?
  badge : ∀ id, getBadge s id =
    (badgesOf (d.content [])).find? fun b => b.badgeId = id
  badges : ∀ w, getBadgesForWallet s w =
    (badgesOf (d.content [])).filter fun b => b.wallet = w
  held : ∀ w m, hasBadge s w m = true ↔ (w, m) ∈ (d.content []).map Mint.key

/-- Under a counter that wraps, a number leads to the badge minted last under
it, wherever it was noted. -/
structure ReadsWrapped (s : Store A M) (d : Deployment A (List (Mint A M))) :
    Prop where
  admin : adminOf s = d.admin?
  badge : ∀ id, getBadge s id = latest (badgesOf (d.content [])) id
  badges : ∀ w, getBadgesForWallet s w =
    ((badgesOf (d.content [])).filter fun b => b.wallet = w).filterMap
      fun b => latest (badgesOf (d.content [])) b.badgeId
  held : ∀ w m, hasBadge s w m = true ↔ (w, m) ∈ (d.content []).map Mint.key

omit [DecidableEq M] in
/-- A wallet's badges, read off the roll: under each of its ids the reader
returns the badge issued last under that id, to whomever. -/
theorem Kept.getBadgesForWallet {a : A} {s : Store A M}
    {roll : List (Mint A M)} (h : Kept a s roll) (w : A) :
    getBadgesForWallet s w =
      ((badgesOf roll).filter fun b => b.wallet = w).filterMap
        fun b => latest (badgesOf roll) b.badgeId := by
  rw [getBadgesForWallet_eq, h.index, List.filterMap_map]
  exact List.filterMap_congr fun b _ => h.badge b.badgeId

omit [DecidableEq M] in
/-- The flag says that the roll has a mint to the wallet for the milestone. -/
theorem Kept.held_iff_mem {a : A} {s : Store A M} {roll : List (Mint A M)}
    (h : Kept a s roll) (w : A) (m : M) :
    hasBadge s w m = true ↔ (w, m) ∈ roll.map Mint.key := by
  rw [h.held, List.mem_map]

theorem readsWrapped_of_stands {s : Store A M}
    {d : Deployment A (List (Mint A M))}
    (h : Stands machine.init Kept s d) : ReadsWrapped s d := by
  cases d with
  | fresh =>
      obtain rfl : s = machine.init := h
      refine ⟨rfl, fun id => rfl, fun w => rfl, fun w m => ?_⟩
      show false = true ↔ (w, m) ∈ []
      simp
  | installed a roll =>
      obtain h : Kept a s roll := h
      exact ⟨h.admin, h.badge, h.getBadgesForWallet, h.held_iff_mem⟩

/-! ## How far the numbers reach -/

section Numbers

omit [DecidableEq A] [DecidableEq M]

theorem badgeId_badgesOf (roll : List (Mint A M)) :
    (badgesOf roll).map BadgeRecord.badgeId =
      (List.range roll.length).map fun n => .ofNat (n + 1) := by
  induction roll using List.reverseRecOn with
  | nil => rfl
  | append_singleton roll r ih =>
      rw [badgesOf_concat, List.map_append, ih, List.length_append,
        List.length_singleton, List.range_succ, List.map_append]
      rfl

/-- Every number is issued once before the first comes again. -/
theorem badgeId_nodup_iff (roll : List (Mint A M)) :
    ((badgesOf roll).map BadgeRecord.badgeId).Nodup ↔
      roll.length ≤ UInt64.size := by
  rw [badgeId_badgesOf, List.nodup_map_iff_inj_on List.nodup_range]
  simp only [List.mem_range, ← UInt64.toNat_inj, UInt64.toNat_ofNat']
  constructor
  · intro h
    by_contra hLong
    exact absurd (h 0 (by omega) UInt64.size (by omega) (by decide))
      (by decide)
  · intro hShort n hn k hk hEq
    simp only [UInt64.size] at hShort
    omega

/-- No later badge comes under a number, then. -/
theorem latest_eq_find {roll : List (Mint A M)}
    (hShort : roll.length ≤ UInt64.size) (id : UInt64) :
    latest (badgesOf roll) id =
      (badgesOf roll).find? fun b => b.badgeId = id := by
  have hUnique := (badgeId_nodup_iff roll).mpr hShort
  exact (find?_reverse_iff (.of_map _ hUnique)).mpr hUnique id

/-- On a roll short enough for the ids to be distinct, the badge issued last
under an id is the only one. -/
theorem latest_badgeId {roll : List (Mint A M)}
    (hShort : roll.length ≤ UInt64.size) {b : BadgeRecord A M}
    (hb : b ∈ badgesOf roll) : latest (badgesOf roll) b.badgeId = some b := by
  have hUnique := (badgeId_nodup_iff roll).mpr hShort
  rw [latest_eq_find hShort, find?_key_eq_some_iff hUnique]
  exact ⟨hb, rfl⟩

end Numbers

omit [DecidableEq M] in
theorem ReadsWrapped.reads {s : Store A M} {d : Deployment A (List (Mint A M))}
    (h : ReadsWrapped s d) (hShort : (d.content []).length ≤ UInt64.size) :
    Reads s d where
  admin := h.admin
  badge id := by rw [h.badge, latest_eq_find hShort]
  badges w := by
    rw [h.badges]
    -- every number of the wallet leads back to its badge
    have hEach : ∀ b ∈ (badgesOf (d.content [])).filter fun b => b.wallet = w,
        latest (badgesOf (d.content [])) b.badgeId = some b := fun b hb =>
      latest_badgeId hShort (List.mem_of_mem_filter hb)
    rw [List.filterMap_congr hEach, List.filterMap_some]
  held := h.held

theorem reads_of_stands {s : Store A M} {d : Deployment A (List (Mint A M))}
    (h : Stands machine.init (fun a s roll => Kept a s roll ∧ Fits roll) s d) :
    Reads s d := by
  cases d with
  | fresh => exact (readsWrapped_of_stands h).reads (Nat.zero_le _)
  | installed a roll =>
      obtain ⟨hKept, hFits⟩ : Kept a s roll ∧ Fits roll := h
      have hReads := readsWrapped_of_stands (d := .installed a roll) hKept
      exact hReads.reads (Nat.le_of_lt hFits)

end ForgePass.Contracts.SoulboundNft
