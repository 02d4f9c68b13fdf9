import ForgePass.Contracts.BadgeIndex

/-!
# Badges are permanent and numbered without gaps

What a mint returned in the past stays true of every later read.  The minted
sequence of a run is a prefix of that of any longer run, and by `BadgeBook`
every reader is a function of the sequence that only grows with it.
-/

namespace ForgePass.Contracts.SoulboundNft

open ForgePass.Verified

variable {A M : Type} [DecidableEq A] [DecidableEq M]

/-- Later runs extend the minted sequence. -/
theorem mintedBadges_mono {p is : List (Invocation A (Call A M))}
    (hp : p <+: is) :
    mintedBadges (machine.history p) <+: mintedBadges (machine.history is) :=
  (machine.history_mono hp).filterMap _

/-- A badge minted earlier in the run is found under its id. -/
theorem getBadge_of_minted {p is : List (Invocation A (Call A M))}
    (hBelow : machine.Along CounterBelowMax is) (hp : p <+: is)
    {r : BadgeRecord A M} (hr : r ∈ mintedBadges (machine.history p)) :
    getBadge (machine.run is) r.badgeId = some r :=
  (badgeBook_run hBelow).registry.lookup_number
    ((mintedBadges_mono hp).subset hr)

/-- The badge list of a wallet only grows at its end along a run. -/
theorem getBadgesForWallet_mono {p is : List (Invocation A (Call A M))}
    (hBelow : machine.Along CounterBelowMax is) (hp : p <+: is) (w : A) :
    getBadgesForWallet (machine.run p) w <+:
      getBadgesForWallet (machine.run is) w := by
  rw [(badgeBook_run (hBelow.earlier hp)).getBadgesForWallet,
    (badgeBook_run hBelow).getBadgesForWallet]
  exact (mintedBadges_mono hp).filter _

/-- A milestone once held is held at every later point of the run. -/
theorem hasBadge_mono {p is : List (Invocation A (Call A M))}
    (hBelow : machine.Along CounterBelowMax is) (hp : p <+: is) {w : A} {m : M}
    (h : hasBadge (machine.run p) w m = true) :
    hasBadge (machine.run is) w m = true := by
  rw [(badgeBook_run (hBelow.earlier hp)).flags] at h
  rw [(badgeBook_run hBelow).flags]
  exact ((mintedBadges_mono hp).map badgeKey).subset h

/-- An authorised mint is rejected exactly when the flag is set. No other check
follows that of the signature. -/
theorem mint_rejects_iff {s : Store A M} {env : Env A}
    (hSigned : SignedBy (adminOf s) env) (w : A) (m : M) (cid : HostString)
    (time : UInt64) :
    (mint w m cid time env s).1 = .error (.error .badgeAlreadyMinted) ↔
      hasBadge s w m = true := by
  rw [mint_run, if_pos hSigned]
  by_cases hFlag : hasBadge s w m = true
  · simp [hFlag]
  · simp [hFlag]

/-- **Permanence.**  Accepted mints return `1, 2, 3, …`; the badge of each is
found under its id ever after; a wallet's badges are its accepted mints, in
order, and only grow at the end; flags are never cleared; and an authorised
mint is rejected exactly when an earlier one for the same wallet and milestone
was accepted. -/
theorem badges_permanent (is : List (Invocation A (Call A M)))
    (hBelow : machine.Along CounterBelowMax is) :
    (mintedBadges (machine.history is)).map (fun r => r.badgeId.toNat) =
        List.range' 1 (mintedBadges (machine.history is)).length ∧
      (∀ p, p <+: is → ∀ r ∈ mintedBadges (machine.history p),
        getBadge (machine.run is) r.badgeId = some r) ∧
      (∀ w, getBadgesForWallet (machine.run is) w =
        (mintedBadges (machine.history is)).filter fun r => r.wallet = w) ∧
      (∀ p, p <+: is → ∀ w, getBadgesForWallet (machine.run p) w <+:
        getBadgesForWallet (machine.run is) w) ∧
      (∀ p, p <+: is → ∀ w m, hasBadge (machine.run p) w m = true →
        hasBadge (machine.run is) w m = true) ∧
      (∀ env w m cid time, SignedBy (adminOf (machine.run is)) env →
        ((mint w m cid time env (machine.run is)).1 =
            .error (.error .badgeAlreadyMinted) ↔
          ∃ r ∈ mintedBadges (machine.history is),
            r.wallet = w ∧ r.milestoneType = m)) := by
  have h := badgeBook_run hBelow
  refine ⟨h.numbered, fun p hp r => getBadge_of_minted hBelow hp,
    h.getBadgesForWallet, fun p hp => getBadgesForWallet_mono hBelow hp,
    fun p hp w m => hasBadge_mono hBelow hp, ?_⟩
  intro env w m cid time hSigned
  rw [mint_rejects_iff hSigned, h.flags, List.mem_map]
  simp only [badgeKey, Prod.mk.injEq]

theorem badges_permanent_sampleMints :
    getBadgesForWallet (machine.run sampleMints) 7 =
        [⟨1, 7, .firstPr, [0xaa], 10⟩, ⟨3, 7, .firstContract, [0xdd], 13⟩] ∧
      (mint 8 .firstPr [] 20 ⟨{0}, 100⟩ (machine.run sampleMints)).1 =
        .error (.error .badgeAlreadyMinted) := by
  have h := badges_permanent sampleMints (by decide)
  refine ⟨(h.2.2.1 7).trans (by decide), ?_⟩
  exact (h.2.2.2.2.2 ⟨{0}, 100⟩ 8 .firstPr [] 20 (by decide)).mpr (by decide)

end ForgePass.Contracts.SoulboundNft
