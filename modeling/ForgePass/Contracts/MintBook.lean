import ForgePass.Contracts.BadgeIndex
import ForgePass.Contracts.CounterLimits
import ForgePass.Verified.Evolution
import ForgePass.Verified.KeyedList

/-!
# The reachable badge stores

The contract is for keeping a list of badges: numbered in the order of their
minting, and at most one for each wallet and milestone.  A `Book` is such a
list and no other, and `store` writes it into the five kinds of keys of the
contract.  While the counter has room, every storage a run reaches is written
so, and the list only grows at its end, by any badges that keep the two
conditions.
-/

namespace ForgePass.Contracts.SoulboundNft

open ForgePass.Verified
open ForgePass.Verified.Machine

variable {A M : Type}

/-- The badges minted, oldest first. They are numbered without a gap and no
wallet has a milestone twice; both come with the list, so that a list without
them cannot be written into storage. -/
@[ext] structure Book (A M : Type) where
  badges : List (BadgeRecord A M)
  numbered : Numbered (fun r => r.badgeId.toNat) badges
  single : (badges.map badgeKey).Nodup

namespace Book

/-- No badge was minted. -/
def blank : Book A M := ⟨[], Numbered.nil, List.nodup_nil⟩

/-- Mint one more badge, under the next number. -/
def mint (x : Book A M) (r : BadgeRecord A M)
    (hNext : r.badgeId.toNat = x.badges.length + 1)
    (hFresh : badgeKey r ∉ x.badges.map badgeKey) : Book A M where
  badges := x.badges ++ [r]
  numbered := x.numbered.concat hNext
  single := by
    rw [List.map_append, List.map_singleton, ← List.concat_eq_append]
    exact x.single.concat hFresh

/-- The number of the newest badge, 0 before the first. -/
def counter (x : Book A M) : UInt64 :=
  (x.badges.getLast?.map BadgeRecord.badgeId).getD 0

/-- The counter of a book has not wrapped: ids are numbered, so there are no
more badges than ids. -/
theorem counter_toNat (x : Book A M) : x.counter.toNat = x.badges.length := by
  unfold counter
  cases hLast : x.badges.getLast? with
  | none =>
      rw [List.getLast?_eq_none_iff.mp hLast]
      rfl
  | some r => exact x.numbered.last hLast

/-- Nothing is minted yet under the next number. -/
theorem next_unused (x : Book A M) {id : UInt64}
    (hNext : id.toNat = x.badges.length + 1) :
    ∀ r ∈ x.badges, r.badgeId ≠ id := by
  rintro r hr rfl
  have hRange := x.numbered.range hr
  omega

/-- A badge is found under its number. -/
theorem mem_iff_find (x : Book A M) (r : BadgeRecord A M) :
    r ∈ x.badges ↔
      x.badges.find? (fun q => q.badgeId = r.badgeId) = some r := by
  have hUnique : (x.badges.map BadgeRecord.badgeId).Nodup := by
    apply List.Nodup.of_map UInt64.toNat
    rw [List.map_map]
    exact x.numbered.nodup
  rw [find?_key_eq_some_iff hUnique]
  exact ⟨fun hr => ⟨hr, rfl⟩, And.left⟩

/-- The list grows at its end: badges are neither taken back nor changed. -/
def Extends (x y : Book A M) : Prop := x.badges <+: y.badges

/-- A mint extends the log at its end. -/
theorem extends_mint (x : Book A M) {r : BadgeRecord A M}
    (hNext : r.badgeId.toNat = x.badges.length + 1)
    (hFresh : badgeKey r ∉ x.badges.map badgeKey) :
    x.Extends (x.mint r hNext hFresh) := List.prefix_append x.badges [r]

end Book

variable [DecidableEq A]

/-- The badges of one wallet, oldest first. -/
def Book.ofWallet (x : Book A M) (w : A) : List (BadgeRecord A M) :=
  x.badges.filter fun r => r.wallet = w

variable [DecidableEq M]

/-- The storage in which a book is written. Counter, lists and flags are all
computed from the list of badges, which therefore determines the storage and is
determined by it. -/
def store : Deployment A (Book A M) → Store A M
  | .fresh => Ledger.empty
  | .installed a x =>
      { instanceTier := fun
          | .admin => some a
          | .badge _ => none
          | .walletBadges _ => none
          | .badgeCounter => x.badges.getLast?.map BadgeRecord.badgeId
          | .hasBadge w m =>
              if (w, m) ∈ x.badges.map badgeKey then some true else none
        persistentTier := fun
          | .admin => none
          | .badge id => x.badges.find? fun r => r.badgeId = id
          | .walletBadges w => (x.ofWallet w).getLast?.map fun _ =>
              (x.ofWallet w).map BadgeRecord.badgeId
          | .badgeCounter => none
          | .hasBadge _ _ => none }

section Views

variable (a : A) (x : Book A M)

@[simp] theorem adminOf_store : adminOf (store (.installed a x)) = some a := rfl

@[simp] theorem badgeCounter_store :
    badgeCounter (store (.installed a x)) = x.counter := rfl

@[simp] theorem getBadge_store (id : UInt64) :
    getBadge (store (.installed a x)) id =
      x.badges.find? fun r => r.badgeId = id := rfl

@[simp] theorem walletBadges_store (w : A) :
    walletBadges (store (.installed a x)) w =
      (x.ofWallet w).map BadgeRecord.badgeId := by
  show ((x.ofWallet w).getLast?.map fun _ =>
    (x.ofWallet w).map BadgeRecord.badgeId).getD [] = _
  cases hLast : (x.ofWallet w).getLast? with
  | none =>
      rw [List.getLast?_eq_none_iff.mp hLast]
      rfl
  | some r => rfl

/-- The flags are stored for the keys in the log and for no others. -/
@[simp] theorem hasBadge_store (w : A) (m : M) :
    hasBadge (store (.installed a x)) w m =
      decide ((w, m) ∈ x.badges.map badgeKey) := by
  show (if (w, m) ∈ x.badges.map badgeKey then some true else none).getD false =
    _
  by_cases h : (w, m) ∈ x.badges.map badgeKey
  · rw [if_pos h, decide_eq_true h]
    rfl
  · rw [if_neg h, decide_eq_false h]
    rfl

end Views

theorem setAdmin_empty (a : A) :
    (Ledger.empty : Store A M).setInstance .admin a =
      store (.installed a Book.blank) := by
  apply Ledger.ext
  · intro k
    cases k with
    | admin => rfl
    | badge id => rfl
    | walletBadges w => rfl
    | badgeCounter => rfl
    | hasBadge w m => rfl
  · intro k
    cases k with
    | admin => rfl
    | badge id => rfl
    | walletBadges w => rfl
    | badgeCounter => rfl
    | hasBadge w m => rfl

/-- Issuing a badge mints it in the book. -/
theorem issueBadge_store (a : A) (x : Book A M) (r : BadgeRecord A M)
    (hNext : r.badgeId.toNat = x.badges.length + 1)
    (hFresh : badgeKey r ∉ x.badges.map badgeKey) :
    issueBadge (store (.installed a x)) r =
      store (.installed a (x.mint r hNext hFresh)) := by
  have hOld := x.next_unused hNext
  apply Ledger.ext
  · intro k
    cases k with
    | admin => rfl
    | badge id => rfl
    | walletBadges w => rfl
    | badgeCounter =>
        show _ = (x.badges ++ [r]).getLast?.map BadgeRecord.badgeId
        rw [List.getLast?_concat]
        simp [issueBadge]
    | hasBadge w m =>
        show _ = if (w, m) ∈ (x.badges ++ [r]).map badgeKey then some true
          else none
        simp only [List.map_append, List.mem_append, List.map_singleton,
          List.mem_singleton]
        by_cases hKey : w = r.wallet ∧ m = r.milestoneType
        · obtain ⟨rfl, rfl⟩ := hKey
          simp [issueBadge, badgeKey]
        · have hOther : ¬(w, m) = badgeKey r := by
            simpa [badgeKey] using hKey
          simp only [hOther, or_false]
          apply Storage.get_set_of_ne
          simpa using hKey
  · intro k
    cases k with
    | admin => rfl
    | badge id =>
        show getBadge (issueBadge _ r) id =
          (x.badges ++ [r]).find? fun r => r.badgeId = id
        rw [getBadge_issueBadge, getBadge_store, List.find?_append]
        by_cases hId : id = r.badgeId
        · subst hId
          have hNone : x.badges.find? (fun q => q.badgeId = r.badgeId) = none := by
            rw [List.find?_eq_none]
            intro q hq
            simpa using hOld q hq
          simp [hNone]
        · have hId' : ¬r.badgeId = id := fun hEq => hId hEq.symm
          simp [hId, hId']
    | walletBadges w =>
        show _ = ((x.mint r hNext hFresh).ofWallet w).getLast?.map fun _ =>
          ((x.mint r hNext hFresh).ofWallet w).map BadgeRecord.badgeId
        have hMine : (x.mint r hNext hFresh).ofWallet w =
            x.ofWallet w ++ [r].filter fun r => r.wallet = w :=
          List.filter_append ..
        rw [hMine]
        by_cases hw : w = r.wallet
        · subst hw
          have hIds := walletBadges_store a x r.wallet
          simp [issueBadge, hIds]
        · have hw' : ¬r.wallet = w := fun hEq => hw hEq.symm
          have hKey : (DataKey.walletBadges w : DataKey A M) ≠
              .walletBadges r.wallet := fun hEq =>
            hw (DataKey.walletBadges.inj hEq)
          have hBadge : (DataKey.walletBadges w : DataKey A M) ≠
              .badge r.badgeId := by simp
          simp only [List.filter_cons, List.filter_nil, hw', decide_false,
            Bool.false_eq_true, if_false, List.append_nil]
          exact (Storage.get_set_of_ne _ hKey _).trans
            (Storage.get_set_of_ne _ hBadge _)
    | badgeCounter => rfl
    | hasBadge w m => rfl

/-! ## Steps along the order -/

/-- Before the bootstrap a call leaves the deployment fresh, or it is the
bootstrap and leaves the blank log. -/
theorem step_fresh (i : Invocation A (Call A M)) :
    (machine.step (store (M := M) .fresh) i).2 = store .fresh ∨
      ∃ a, (machine.step (store .fresh) i).2 =
        store (.installed a Book.blank) := by
  have hStep := step_transition (store .fresh) i
  generalize (machine.step (store .fresh) i).1 = answer at hStep
  generalize (machine.step (store .fresh) i).2 = s' at hStep
  cases hStep with
  | refused i e => exact .inl rfl
  | initialized env a hAdmin => exact .inr ⟨a, setAdmin_empty a⟩
  | minted env w m cid time hSigned hFresh =>
      exact absurd hSigned (not_signedBy_none _)

/-- The step lemma: a call that finds room in the counter leaves the storage of
a log that extends the one before. -/
theorem step_installed (a : A) (x : Book A M) (i : Invocation A (Call A M))
    (hRoom : RoomLeft (store (.installed a x)) i) :
    ∃ y, x.Extends y ∧ (machine.step (store (.installed a x)) i).2 =
      store (.installed a y) := by
  have hStep := step_transition (store (.installed a x)) i
  generalize (machine.step (store (.installed a x)) i).1 = answer at hStep
  generalize (machine.step (store (.installed a x)) i).2 = s' at hStep
  cases hStep with
  | refused i e => exact ⟨x, List.prefix_refl _, rfl⟩
  | initialized env b hAdmin => cases hAdmin
  | minted env w m cid time hSigned hFresh =>
      have hBelow : x.counter.toNat + 1 < UInt64.size :=
        hRoom ⟨hSigned, hFresh⟩
      rw [hasBadge_store, decide_eq_false_iff_not] at hFresh
      have hNext : (x.counter + 1).toNat = x.badges.length + 1 := by
        rw [uint64_toNat_succ hBelow, x.counter_toNat]
      let r : BadgeRecord A M := ⟨x.counter + 1, w, m, cid, time⟩
      have hKey : badgeKey r ∉ x.badges.map badgeKey := hFresh
      exact ⟨x.mint r hNext hKey, x.extends_mint hNext hKey,
        issueBadge_store a x r hNext hKey⟩

/-! ## Growth by one badge -/

/-- Every numbered badge for a new key can be minted next, by the call that its
fields spell out. -/
theorem follows_mint (a : A) (x : Book A M) (r : BadgeRecord A M)
    (hNext : r.badgeId.toNat = x.badges.length + 1)
    (hFresh : badgeKey r ∉ x.badges.map badgeKey) :
    machine.Follows RoomLeft (store (.installed a x))
      (store (.installed a (x.mint r hNext hFresh))) := by
  have hBelow : x.counter.toNat + 1 < UInt64.size := by
    rw [x.counter_toNat, ← hNext]
    exact r.badgeId.toNat_lt_size
  have hId : x.counter + 1 = r.badgeId := by
    apply UInt64.toNat_inj.mp
    rw [uint64_toNat_succ hBelow, x.counter_toNat, hNext]
  have hMissing : ¬hasBadge (store (.installed a x)) r.wallet
      r.milestoneType = true := by
    rw [hasBadge_store, decide_eq_true_eq]
    exact hFresh
  apply Follows.step (i := ⟨⟨{a}, 0⟩, .mint r.wallet r.milestoneType r.ipfsCid
    r.mintedAt⟩) (fun _ => hBelow)
  rw [step_mint, if_pos (by simp), if_neg hMissing, badgeCounter_store, hId]
  exact issueBadge_store a x r hNext hFresh

/-- Minting the missing badges one after the other. Their numbers are the next
ones, since the longer list is numbered too. -/
theorem follows_extends (a : A) {x y : Book A M} (h : x.Extends y) :
    machine.Follows RoomLeft (store (.installed a x))
      (store (.installed a y)) := by
  obtain ⟨rest, hRest⟩ := h
  induction rest using List.reverseRecOn generalizing y with
  | nil =>
      have hSame : x = y := Book.ext (by rw [← hRest, List.append_nil])
      rw [hSame]
      exact .refl _
  | append_singleton rest r ih =>
      rw [← List.append_assoc] at hRest
      -- the book before the last badge
      have hNumbers := y.numbered
      have hKeys := y.single
      rw [← hRest] at hNumbers hKeys
      have hInit := hNumbers.of_concat
      have hNext : r.badgeId.toNat = (x.badges ++ rest).length + 1 := by
        rw [hNumbers.last List.getLast?_concat, List.length_append]
        rfl
      rw [List.map_append, List.map_singleton, ← List.concat_eq_append,
        List.nodup_concat] at hKeys
      have hMint := follows_mint a ⟨x.badges ++ rest, hInit, hKeys.2⟩ r hNext
        hKeys.1
      have hSame : (Book.mk (x.badges ++ rest) hInit hKeys.2).mint r hNext
          hKeys.1 = y := Book.ext hRest
      rw [hSame] at hMint
      exact (ih rfl).trans hMint

/-- The badge contract is its log: calls with room extend it, and every
extension is a run of mints. -/
theorem bookEncoding : Encoding machine RoomLeft (store (A := A) (M := M))
    (Deployment.Evolves Book.blank fun _ => Book.Extends) := by
  apply Deployment.encoding
  · exact fun _ x => List.prefix_refl _
  · exact fun _ x y z => List.IsPrefix.trans
  · exact fun i _ => step_fresh i
  · exact step_installed
  · exact fun a => Follows.step (i := ⟨⟨∅, 0⟩, .initializeAdmin a⟩) trivial
      (setAdmin_empty a)
  · exact fun a x y => follows_extends a

/-- Every run leaves a written book. -/
theorem run_store {is : List (Invocation A (Call A M))}
    (hRoom : machine.Each RoomLeft is) : ∃ c, machine.run is = store c := by
  obtain ⟨c, -, hc⟩ := bookEncoding.run (b := .fresh) hRoom
  exact ⟨c, hc⟩

/-- **The evolution of badges.** While the counter has room, from a written
book exactly those storages can be reached that hold an extension of it. Any
extension will do: an administrator can mint any badges in any order, as long
as no wallet gets a milestone twice. -/
theorem badges_follow_iff (b : Deployment A (Book A M)) (t : Store A M) :
    machine.Follows RoomLeft (store b) t ↔
      ∃ c, b.Evolves Book.blank (fun _ => Book.Extends) c ∧ store c = t :=
  bookEncoding.follows_iff b t

end ForgePass.Contracts.SoulboundNft
