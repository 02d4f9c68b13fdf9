import ForgePass.Contracts.BadgeIndex
import ForgePass.Verified.Window

/-!
# Badge numbers and mint times

`minted_at` is an argument of the caller, and `mint` numbers badges by the
counter without comparing it.  So the order of the numbers is the order of the
mint times in every state of a run as long as the accepted mints arrive in
order: each with a `minted_at` no smaller than that of the newest badge.
Below the maximum of the counter they also have to.
-/

namespace ForgePass.Contracts.SoulboundNft

open ForgePass.Verified

variable {A M : Type}

/-- `a` was minted no later than `b`, as their records say. The dates are
arguments of the mint calls, not times of the ledger. -/
def NoLater (a b : BadgeRecord A M) : Prop := a.mintedAt ≤ b.mintedAt

instance : IsTrans (BadgeRecord A M) NoLater := ⟨fun _ _ _ => UInt64.le_trans⟩

/-- Badge numbers, and the order of every wallet's badges, follow the mint
times. -/
structure Chronological (s : Store A M) : Prop where
  numbered : ∀ i j r r', i < j → getBadge s i = some r →
    getBadge s j = some r' → NoLater r r'
  listed : ∀ w, (getBadgesForWallet s w).Pairwise NoLater

variable [DecidableEq A]

/-! ## From the order of the sequence to the order of the badges -/

/-- The badge under the counter is the last one minted. -/
theorem BadgeBook.newest {s : Store A M} {log : List (BadgeRecord A M)}
    (h : BadgeBook s log) {r : BadgeRecord A M} (hr : r ∈ log.getLast?) :
    getBadge s (badgeCounter s) = some r := by
  have hNumber := h.numbered.last hr
  rw [← h.counter] at hNumber
  rw [← UInt64.toNat_inj.mp hNumber]
  exact h.registry.lookup_number (List.mem_of_getLast? hr)

/-- A book minted in order is chronological: ids follow the order of minting,
in the counter as in the list of each wallet. -/
theorem BadgeBook.chronological {s : Store A M} {log : List (BadgeRecord A M)}
    (h : BadgeBook s log) (hSorted : log.Pairwise NoLater) :
    Chronological s where
  numbered := by
    intro i j r r' hLt hr hr'
    obtain ⟨hMem, rfl⟩ := (h.registry.found i r).mp hr
    obtain ⟨hMem', rfl⟩ := (h.registry.found j r').mp hr'
    exact h.numbered.ordered hSorted r hMem r' hMem'
      (UInt64.lt_iff_toNat_lt.mp hLt)
  listed := by
    intro w
    rw [h.getBadgesForWallet]
    exact hSorted.sublist List.filter_sublist

/-! ## From the order of the mints to the order of the sequence -/

variable [DecidableEq M]

/-- An accepted `mint` finds room in the counter and is minted no earlier than
the newest badge. -/
def InOrder (s : Store A M) (i : Invocation A (Call A M)) : Prop :=
  match i.call with
  | .initializeAdmin _ => True
  | .mint w m _ time =>
      SignedBy (adminOf s) i.env ∧ hasBadge s w m = false →
        CounterBelowMax s ∧
          ∀ newest ∈ getBadge s (badgeCounter s), newest.mintedAt ≤ time

instance (s : Store A M) (i : Invocation A (Call A M)) :
    Decidable (InOrder s i) :=
  match i with
  | ⟨_, .initializeAdmin _⟩ => .isTrue trivial
  | ⟨env, .mint w m _ time⟩ =>
      inferInstanceAs (Decidable (SignedBy (adminOf s) env ∧
        hasBadge s w m = false → CounterBelowMax s ∧
          ∀ newest ∈ getBadge s (badgeCounter s), newest.mintedAt ≤ time))

/-- What an accepted mint finds. -/
theorem InOrder.accepted {s s' : Store A M} {i : Invocation A (Call A M)}
    {answer : Answer} {r : BadgeRecord A M} (h : InOrder s i)
    (hStep : Transition s i answer s') (hEntry : mintEntry (i, answer) = some r) :
    CounterBelowMax s ∧
      ∀ newest ∈ getBadge s (badgeCounter s), NoLater newest r := by
  cases hStep with
  | refused i e =>
      rw [mintEntry_refused] at hEntry
      cases hEntry
  | initialized env a hAdmin => cases hEntry
  | minted env w m cid time hSigned hFresh =>
      cases hEntry
      exact h ⟨hSigned, hFresh⟩

/-- Mints in order write a book in order. -/
theorem sortedBook_of_each {is : List (Invocation A (Call A M))}
    (h : machine.Each InOrder is) :
    BadgeBook (machine.run is) (mintedBadges (machine.history is)) ∧
      (mintedBadges (machine.history is)).Pairwise NoLater := by
  refine h.history_invariant (R := fun s history =>
    BadgeBook s (mintedBadges history) ∧
      (mintedBadges history).Pairwise NoLater)
    ⟨BadgeBook.fresh, List.Pairwise.nil⟩ ?_
  intro s history i hOrder hBoth
  obtain ⟨hBook, hSorted⟩ := hBoth
  have hStep := step_transition s i
  refine ⟨badgeBook_step hStep ?_ hBook, ?_⟩
  · intro hMints
    obtain ⟨r, hEntry⟩ := Option.ne_none_iff_exists'.mp hMints
    exact (hOrder.accepted hStep hEntry).1
  · rw [mintedBadges_concat]
    cases hEntry : mintEntry (i, (machine.step s i).1) with
    | none =>
        rw [Option.toList_none, List.append_nil]
        exact hSorted
    | some r =>
        rw [Option.toList_some, pairwise_concat_iff]
        refine ⟨hSorted, ?_⟩
        intro last hLast
        exact (hOrder.accepted hStep hEntry).2 last (hBook.newest hLast)

/-! ## From the order of the badges to the order of the mints -/

/-- If a call leaves a chronological state behind, it was in order: the badge
issued before it has the next smaller number. -/
theorem inOrder_of_chronological {s : Store A M}
    {i : Invocation A (Call A M)} (hBelow : CounterBelowMax s)
    (h : Chronological (machine.step s i).2) : InOrder s i := by
  obtain ⟨env, call⟩ := i
  cases call with
  | initializeAdmin a => trivial
  | mint w m cid time =>
      intro hPasses
      refine ⟨hBelow, ?_⟩
      intro newest hNewest
      have hMissing : ¬hasBadge s w m = true :=
        Bool.eq_false_iff.mp hPasses.2
      rw [step_mint, if_pos hPasses.1, if_neg hMissing] at h
      have hSucc := uint64_toNat_succ hBelow
      have hLt : badgeCounter s < badgeCounter s + 1 := by
        rw [UInt64.lt_iff_toNat_lt, hSucc]
        exact Nat.lt_succ_self _
      refine h.numbered (badgeCounter s) (badgeCounter s + 1) newest
        ⟨badgeCounter s + 1, w, m, cid, time⟩ hLt ?_ ?_
      · rw [getBadge_issueBadge, if_neg (UInt64.ne_of_lt hLt)]
        exact hNewest
      · rw [getBadge_issueBadge, if_pos rfl]

/-- The converse below the maximum of the counter: an accepted mint dated
before the badge minted last would leave a descending list. -/
theorem each_inOrder_of_along {is : List (Invocation A (Call A M))}
    (hBelow : machine.Along CounterBelowMax is)
    (h : machine.Along Chronological is) : machine.Each InOrder is := by
  induction is using List.reverseRecOn with
  | nil => exact machine.each_nil
  | append_singleton is i ih =>
      have hFinal := h.final
      rw [machine.run_concat] at hFinal
      rw [machine.each_concat]
      exact ⟨ih hBelow.of_concat h.of_concat,
        inOrder_of_chronological hBelow.of_concat.final hFinal⟩

/-- **Mint chronology.**  Along a run whose accepted mints arrive in order,
badge numbers and wallets' badges follow the mint times in every state; while
the counter is below its maximum, along no other run. -/
theorem badges_chronological_iff (is : List (Invocation A (Call A M))) :
    (machine.Each InOrder is → machine.Along Chronological is) ∧
      (machine.Along CounterBelowMax is →
        (machine.Along Chronological is ↔ machine.Each InOrder is)) := by
  have hSufficient : machine.Each InOrder is →
      machine.Along Chronological is := by
    intro h p hp
    obtain ⟨hBook, hSorted⟩ := sortedBook_of_each (h.earlier hp)
    exact hBook.chronological hSorted
  exact ⟨hSufficient, fun hBelow =>
    ⟨each_inOrder_of_along hBelow, hSufficient⟩⟩

theorem badges_chronological_sampleMints :
    machine.Along Chronological sampleMints :=
  (badges_chronological_iff sampleMints).1 (by decide)

/-- A later mint with an earlier `minted_at`. -/
theorem badges_descend :
    ¬∀ is : List (Invocation Nat (Call Nat MilestoneType)),
      machine.Along Chronological is := by
  intro h
  let env : Env Nat := ⟨{0}, 100⟩
  have hRun := (h [⟨env, .initializeAdmin 0⟩,
    ⟨env, .mint 7 .firstPr [0xaa] 20⟩,
    ⟨env, .mint 7 .firstContract [0xbb] 10⟩]).final.numbered 1 2
    ⟨1, 7, .firstPr, [0xaa], 20⟩ ⟨2, 7, .firstContract, [0xbb], 10⟩
    (by decide) (by decide) (by decide)
  revert hRun
  unfold NoLater
  decide

end ForgePass.Contracts.SoulboundNft
