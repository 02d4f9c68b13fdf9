import ForgePass.Contracts.BadgeHistory
import ForgePass.Verified.Renaming
import ForgePass.Verified.Simulation

/-!
# Badges of one wallet do not depend on the others

Wallets share the badge counter, so the mints of other wallets show in a
wallet's badge numbers and nowhere else.  A run is compared with the same run
reduced to the calls about one wallet: the two agree on the administrator and
on that wallet's flags, and the counter of the reduced run stays behind.  The
badges of the wallet then form the same sequence up to their numbers, which
increase in both runs and are therefore renamings of each other.
-/

namespace ForgePass.Contracts.SoulboundNft

open ForgePass.Verified
open ForgePass.Verified.Machine

variable {A M : Type}

/-! ## Renumbering -/

/-- The badge under another number. -/
def renumber (f : UInt64 → UInt64) (r : BadgeRecord A M) : BadgeRecord A M :=
  { r with badgeId := f r.badgeId }

/-- A reply with its badge number replaced. -/
def Reply.renumber (f : UInt64 → UInt64) : Reply → Reply
  | .unit => .unit
  | .badgeId id => .badgeId (f id)

/-- An answer with its badge number replaced; failures have none. -/
def renumberAnswer (f : UInt64 → UInt64) (answer : Answer) : Answer :=
  answer.map (Reply.renumber f)

/-- Answers alike but for the badge numbers in them. -/
def AlikeAnswers (answer answer' : Answer) : Prop :=
  renumberAnswer (fun _ => 0) answer = renumberAnswer (fun _ => 0) answer'

/-- Badges alike but for their numbers. Numbers come from a counter shared by
all wallets, so they are the one thing about a wallet that the mints of others
decide. -/
def AlikeBadges (l l' : List (BadgeRecord A M)) : Prop :=
  l.map (renumber fun _ => 0) = l'.map (renumber fun _ => 0)

theorem AlikeBadges.length {l l' : List (BadgeRecord A M)}
    (h : AlikeBadges l l') : l.length = l'.length := by
  have hLen := congrArg List.length h
  rw [List.length_map, List.length_map] at hLen
  exact hLen

theorem AlikeBadges.append {l l' k k' : List (BadgeRecord A M)}
    (h : AlikeBadges l l') (hTail : AlikeBadges k k') :
    AlikeBadges (l ++ k) (l' ++ k') := by
  unfold AlikeBadges at *
  rw [List.map_append, List.map_append, h, hTail]

/-- Badges alike whose numbers are renamed are renumbered. -/
theorem AlikeBadges.map_renumber {f : UInt64 → UInt64}
    {l l' : List (BadgeRecord A M)} (h : AlikeBadges l l')
    (hIds : (l.map BadgeRecord.badgeId).map f = l'.map BadgeRecord.badgeId) :
    l.map (renumber f) = l' := by
  induction l generalizing l' with
  | nil =>
      have hLen := h.length
      exact (List.length_eq_zero_iff.mp hLen.symm).symm
  | cons r l ih =>
      cases l' with
      | nil => cases h.length
      | cons r' l' =>
          unfold AlikeBadges at h
          simp only [List.map_cons, List.cons.injEq] at h hIds
          rw [List.map_cons, ih h.2 hIds.2, List.cons.injEq]
          refine ⟨?_, rfl⟩
          have hHead := h.1
          have hId := hIds.1
          cases r
          cases r'
          simp only [renumber, BadgeRecord.mk.injEq] at hHead hId ⊢
          exact ⟨hId, hHead.2⟩

/-- Renumbering the answer of a call renumbers the badge that it logs. -/
theorem mintEntry_renumber (f : UInt64 → UInt64)
    (i : Invocation A (Call A M)) (answer : Answer) :
    mintEntry (i, renumberAnswer f answer) =
      (mintEntry (i, answer)).map (renumber f) := by
  obtain ⟨env, call⟩ := i
  cases call with
  | initializeAdmin a => rfl
  | mint w m cid time =>
      cases answer with
      | error e => rfl
      | ok reply =>
          cases reply with
          | unit => rfl
          | badgeId id => rfl

/-- Alike answers to a mint whose entries are renumbered. -/
theorem AlikeAnswers.eq_renumber {f : UInt64 → UInt64}
    {answer answer' : Answer} (h : AlikeAnswers answer answer') {env : Env A}
    {w : A} {m : M} {cid : HostString} {time : UInt64}
    (hEntry : (mintEntry (⟨env, .mint w m cid time⟩, answer')).toList =
      (mintEntry (⟨env, .mint w m cid time⟩, answer)).toList.map (renumber f)) :
    answer' = renumberAnswer f answer := by
  unfold AlikeAnswers renumberAnswer at *
  cases answer with
  | error e =>
      cases answer' with
      | error e' => simpa [Except.map] using h.symm
      | ok reply' => cases h
  | ok reply =>
      cases answer' with
      | error e' => cases h
      | ok reply' =>
          cases reply with
          | unit =>
              cases reply' with
              | unit => rfl
              | badgeId id' => cases h
          | badgeId id =>
              cases reply' with
              | unit => cases h
              | badgeId id' =>
                  have hId : id' = f id := by
                    simpa [mintEntry, SoulboundNft.renumber] using hEntry
                  rw [hId]
                  rfl

/-! ## One call in both runs -/

/-- The calls kept about a wallet: the wallet's own mints, and `initialize`,
without which none of them would be accepted. -/
def concerns (w : A) [DecidableEq A] (i : Invocation A (Call A M)) : Bool :=
  match i.call with
  | .initializeAdmin _ => true
  | .mint v _ _ _ => v = w

variable [DecidableEq A]

/-- A logged badge belongs to the wallet that its call concerns. -/
theorem mintEntry_wallet {i : Invocation A (Call A M)} {answer : Answer}
    {r : BadgeRecord A M} (hEntry : mintEntry (i, answer) = some r) (w : A) :
    concerns w i = decide (r.wallet = w) := by
  obtain ⟨env, call⟩ := i
  cases call with
  | initializeAdmin a => cases hEntry
  | mint v m cid time =>
      cases answer with
      | error e => cases hEntry
      | ok reply =>
          cases reply with
          | unit => cases hEntry
          | badgeId id =>
              cases hEntry
              rfl

/-- The wallet's share of what a call mints: all of it or none. -/
theorem filter_mintEntry (w : A) (i : Invocation A (Call A M))
    (answer : Answer) :
    ((mintEntry (i, answer)).toList.filter fun r => r.wallet = w) =
      if concerns w i then (mintEntry (i, answer)).toList else [] := by
  cases hEntry : mintEntry (i, answer) with
  | none => simp
  | some r =>
      rw [mintEntry_wallet hEntry w, Option.toList_some, List.filter_singleton]
      by_cases hWallet : r.wallet = w
      · simp [hWallet]
      · simp [hWallet]

omit [DecidableEq A] in
/-- Alike answers to one call mint alike badges. -/
theorem AlikeAnswers.minted {answer answer' : Answer}
    (h : AlikeAnswers answer answer') (i : Invocation A (Call A M)) :
    AlikeBadges (mintEntry (i, answer)).toList
      (mintEntry (i, answer')).toList := by
  have hEntries := congrArg (fun a => mintEntry (i, a)) h
  simp only [mintEntry_renumber] at hEntries
  unfold AlikeBadges
  rw [← Option.toList_map, ← Option.toList_map, hEntries]

variable [DecidableEq M]

/-- What the reduced run shares with the full one, as far as one call can
see. -/
structure Follows (w : A) (s s' : Store A M) : Prop where
  admin : adminOf s = adminOf s'
  flags : ∀ m, hasBadge s w m = hasBadge s' w m
  counter : (badgeCounter s').toNat ≤ (badgeCounter s).toNat

/-- Both runs issue a badge that differs in its number only. -/
theorem Follows.issue {w : A} {s s' : Store A M} (h : Follows w s s')
    (hBelow : CounterBelowMax s) (m : M) (cid : HostString) (time : UInt64) :
    Follows w (issueBadge s ⟨badgeCounter s + 1, w, m, cid, time⟩)
      (issueBadge s' ⟨badgeCounter s' + 1, w, m, cid, time⟩) := by
  have hCounter := h.counter
  have hBelow' : CounterBelowMax s' := by
    unfold CounterBelowMax at hBelow ⊢
    omega
  refine ⟨?_, ?_, ?_⟩
  · rw [adminOf_issueBadge, adminOf_issueBadge, h.admin]
  · intro m'
    rw [hasBadge_issueBadge, hasBadge_issueBadge, h.flags]
  · rw [badgeCounter_issueBadge, badgeCounter_issueBadge,
      uint64_toNat_succ hBelow, uint64_toNat_succ hBelow']
    omega

/-- The full run alone issues a badge to another wallet. -/
theorem Follows.issueOther {w v : A} {s s' : Store A M} (h : Follows w s s')
    (hBelow : CounterBelowMax s) (hOther : v ≠ w) (m : M) (cid : HostString)
    (time : UInt64) :
    Follows w (issueBadge s ⟨badgeCounter s + 1, v, m, cid, time⟩) s' := by
  have hCounter := h.counter
  refine ⟨?_, ?_, ?_⟩
  · rw [adminOf_issueBadge, h.admin]
  · intro m'
    have hKey : ¬(w = v ∧ m' = m) := fun hEq => hOther hEq.1.symm
    rw [hasBadge_issueBadge, decide_eq_false hKey, Bool.false_or, h.flags]
  · rw [badgeCounter_issueBadge, uint64_toNat_succ hBelow]
    omega

theorem Follows.setAdmin {w : A} {s s' : Store A M} (h : Follows w s s')
    (a : A) :
    Follows w (s.setInstance .admin a) (s'.setInstance .admin a) := by
  refine ⟨by simp, ?_, ?_⟩
  · intro m
    rw [hasBadge_setAdmin, hasBadge_setAdmin, h.flags]
  · rw [badgeCounter_setAdmin, badgeCounter_setAdmin]
    exact h.counter

/-- A kept call does alike in both runs: it passes the same checks, and what it
issues differs in the number only. -/
theorem follows_kept {w : A} {s s' : Store A M} (h : Follows w s s')
    (hBelow : CounterBelowMax s) {i : Invocation A (Call A M)}
    (hKeep : concerns w i = true) :
    Related AlikeAnswers (Follows w) (machine.step s i) (machine.step s' i) := by
  obtain ⟨env, call⟩ := i
  cases call with
  | initializeAdmin a =>
      rw [step_initializeAdmin, step_initializeAdmin, ← h.admin]
      apply Related.ite
      · intro hAdmin
        exact ⟨rfl, h⟩
      · intro hAdmin
        exact ⟨rfl, h.setAdmin a⟩
  | mint v m cid time =>
      have hWallet : v = w := of_decide_eq_true hKeep
      subst hWallet
      rw [step_mint, step_mint, ← h.admin, ← h.flags]
      refine .ite (fun hSigned => ?_) fun hSigned => ⟨rfl, h⟩
      apply Related.ite
      · intro hFlag
        exact ⟨rfl, h⟩
      · intro hFlag
        exact ⟨rfl, h.issue hBelow m cid time⟩

/-- A call about another wallet shows in the counter only: the full run is
ahead of the reduced one by the badges of others. -/
theorem follows_erased {w : A} {s s' : Store A M} (h : Follows w s s')
    (hBelow : CounterBelowMax s) {i : Invocation A (Call A M)}
    {answer : Answer} {t : Store A M} (hStep : Transition s i answer t)
    (hErase : concerns w i = false) : Follows w t s' := by
  cases hStep with
  | refused i e => exact h
  | initialized env a hAdmin => cases hErase
  | minted env v m cid time hSigned hFresh =>
      exact h.issueOther hBelow (of_decide_eq_false hErase) m cid time

/-- The full contract simulates the one that serves `w` alone: calls that do
not concern `w` are stuttering steps of the reduced run. -/
theorem simulation (w : A) :
    Simulation (machine : Machine (Store A M) _ _) machine
      (Option.guard (concerns w)) CounterBelowMax (Follows w) AlikeAnswers :=
  Simulation.ofKeep ⟨rfl, fun _ => rfl, Nat.le_refl _⟩
    (fun _ _ _ hBelow h hKeep => follows_kept h hBelow hKeep)
    (fun s _ i hBelow h hErase =>
      follows_erased h hBelow (step_transition s i) hErase)

/-! ## Both runs -/

/-- The calls of a run that are kept for a wallet. -/
def reduced (w : A) (is : List (Invocation A (Call A M))) :
    List (Invocation A (Call A M)) := is.filter (concerns w)

section Runs

variable {w : A} {is : List (Invocation A (Call A M))}
  (hBelow : machine.Along CounterBelowMax is)

include hBelow

/-- At the end of a run and of its reduction to `w`, the two storages agree on
`w` up to the numbers of its badges. -/
theorem follows_run : Follows w (machine.run is) (machine.run (reduced w is)) := by
  have hRun := (simulation w).run hBelow
  rw [List.filterMap_eq_filter] at hRun
  exact hRun

/-- The reduced run mints no more badges than the full one, so its counter has
room wherever that of the full run has. -/
theorem reduced_belowMax : machine.Along CounterBelowMax (reduced w is) := by
  have hBehind (s s' : Store A M) (hMax : CounterBelowMax s)
      (h : Follows w s s') : CounterBelowMax s' := by
    have hCounter := h.counter
    unfold CounterBelowMax at hMax ⊢
    omega
  have hAlong := (simulation w).along hBehind hBelow
  rw [List.filterMap_eq_filter] at hAlong
  exact hAlong

/-- What one kept call adds to the wallet's badges. -/
theorem scan_concat {p : List (Invocation A (Call A M))}
    {i : Invocation A (Call A M)} (hp : p ++ [i] <+: is)
    (hKeep : concerns w i = true) :
    getBadgesForWallet (machine.run (p ++ [i])) w =
      getBadgesForWallet (machine.run p) w ++
        (mintEntry (i, (machine.step (machine.run p) i).1)).toList := by
  have hAfter := hBelow.earlier hp
  rw [(badgeBook_run hAfter).getBadgesForWallet,
    (badgeBook_run hAfter.of_concat).getBadgesForWallet, machine.history_concat,
    mintedBadges_concat, List.filter_append, filter_mintEntry, if_pos hKeep]

/-- The wallet's badges are alike in both runs. -/
theorem alikeBadges_run :
    AlikeBadges (getBadgesForWallet (machine.run is) w)
      (getBadgesForWallet (machine.run (reduced w is)) w) := by
  have hHistory := (simulation w).history
    (T := fun l l' =>
      AlikeBadges ((mintedBadges l).filter fun r => r.wallet = w)
        ((mintedBadges l').filter fun r => r.wallet = w)) rfl ?_ ?_ hBelow
  · rw [List.filterMap_eq_filter] at hHistory
    rw [(badgeBook_run hBelow).getBadgesForWallet,
      (badgeBook_run (reduced_belowMax hBelow)).getBadgesForWallet]
    exact hHistory
  · intro l l' i i' answer answer' h hImage hAlike
    obtain ⟨rfl, hKeep⟩ := Option.guard_eq_some_iff.mp hImage
    simp only [mintedBadges_concat, List.filter_append, filter_mintEntry]
    rw [if_pos hKeep, if_pos hKeep]
    exact h.append (hAlike.minted i)
  · intro l l' i answer h hImage
    rw [Option.guard_eq_none_iff] at hImage
    simp only [mintedBadges_concat, List.filter_append, filter_mintEntry]
    rw [hImage, if_neg Bool.false_ne_true, List.append_nil]
    exact h

/-- The ids listed for the wallet are those of its badges. -/
theorem scan_ids :
    (getBadgesForWallet (machine.run is) w).map BadgeRecord.badgeId =
      walletBadges (machine.run is) w := (indexes_agree is hBelow).unskipped w

theorem walletBadges_length :
    (walletBadges (machine.run is) w).length =
      (walletBadges (machine.run (reduced w is)) w).length := by
  rw [← scan_ids hBelow, ← scan_ids (reduced_belowMax hBelow), List.length_map,
    List.length_map]
  exact (alikeBadges_run hBelow).length

theorem walletBadges_mono {p : List (Invocation A (Call A M))}
    (hp : p <+: is) :
    walletBadges (machine.run p) w <+: walletBadges (machine.run is) w := by
  rw [← scan_ids hBelow, ← scan_ids (hBelow.earlier hp)]
  exact (getBadgesForWallet_mono hBelow hp w).map _

/-- One renaming serves all corresponding points of the two runs. It is
strictly increasing on the wallet's ids, so it keeps their order. -/
theorem exists_renumbering : ∃ f : UInt64 → UInt64,
    (∀ id ∈ walletBadges (machine.run is) w,
      ∀ id' ∈ walletBadges (machine.run is) w, id < id' → f id < f id') ∧
      ∀ p, p <+: is → getBadgesForWallet (machine.run (reduced w p)) w =
        (getBadgesForWallet (machine.run p) w).map (renumber f) := by
  have hBelow' := reduced_belowMax (w := w) hBelow
  obtain ⟨f, hMono, hMap⟩ := exists_renaming
    (fun _ _ h => UInt64.lt_asymm h)
    ((badgeBook_run hBelow).walletBadges_increasing w)
    ((badgeBook_run hBelow').walletBadges_increasing w)
    (walletBadges_length hBelow)
  refine ⟨f, hMono, ?_⟩
  intro p hp
  have hPart := hBelow.earlier hp
  have hReduced : reduced w p <+: reduced w is := hp.filter _
  symm
  apply (alikeBadges_run hPart).map_renumber
  rw [scan_ids hPart, scan_ids (reduced_belowMax hPart)]
  exact map_of_isPrefix hMap (walletBadges_mono hBelow hp)
    (walletBadges_mono hBelow' hReduced) (walletBadges_length hPart)

end Runs

/-! ## The wallet's view -/

/-- The readers applied to a wallet, up to a renumbering. -/
structure RenumberedReads (f : UInt64 → UInt64) (w : A) (s s' : Store A M) :
    Prop where
  flags : ∀ m, hasBadge s' w m = hasBadge s w m
  badges : getBadgesForWallet s' w =
    (getBadgesForWallet s w).map (renumber f)

/-- A kept call is answered alike, renumbered. -/
theorem answer_renumbered {w : A} {is p : List (Invocation A (Call A M))}
    {i : Invocation A (Call A M)} (hBelow : machine.Along CounterBelowMax is)
    (hp : p ++ [i] <+: is) (hKeep : concerns w i = true)
    {f : UInt64 → UInt64}
    (hScan : ∀ p, p <+: is → getBadgesForWallet (machine.run (reduced w p)) w =
      (getBadgesForWallet (machine.run p) w).map (renumber f)) :
    (machine.step (machine.run (reduced w p)) i).1 =
      renumberAnswer f (machine.step (machine.run p) i).1 := by
  have hBefore : p <+: is := (List.prefix_append p [i]).trans hp
  have hPart := hBelow.earlier hBefore
  have hRun : Follows w (machine.run p) (machine.run (reduced w p)) :=
    follows_run hPart
  have hAlike := (follows_kept hRun hPart.final hKeep).answer
  have hReduced : reduced w (p ++ [i]) = reduced w p ++ [i] := by
    unfold reduced
    rw [List.filter_append, List.filter_singleton, hKeep]
    rfl
  -- The entries the call adds to both scans are renumbered.
  have hEntry :
      (mintEntry (i, (machine.step (machine.run (reduced w p)) i).1)).toList =
        (mintEntry (i, (machine.step (machine.run p) i).1)).toList.map
          (renumber f) := by
    have hAfter := hScan (p ++ [i]) hp
    have hPrefix : reduced w p ++ [i] <+: reduced w is := by
      rw [← hReduced]
      exact hp.filter _
    rw [hReduced, scan_concat (reduced_belowMax hBelow) hPrefix hKeep,
      scan_concat hBelow hp hKeep, List.map_append, hScan p hBefore,
      List.append_cancel_left_eq] at hAfter
    exact hAfter
  obtain ⟨env, call⟩ := i
  cases call with
  | initializeAdmin a =>
      rw [step_initializeAdmin, step_initializeAdmin, ← hRun.admin]
      by_cases hAdmin : (adminOf (machine.run p)).isSome
      · rw [if_pos hAdmin, if_pos hAdmin]
        rfl
      · rw [if_neg hAdmin, if_neg hAdmin]
        rfl
  | mint v m cid time => exact hAlike.eq_renumber hEntry

/-- **Isolation of badges.**  With every call about other wallets erased, a
wallet's mints are accepted and rejected alike and its readers return the same
up to one strictly increasing renumbering. -/
theorem badges_isolated (w : A) {is : List (Invocation A (Call A M))}
    (hBelow : machine.Along CounterBelowMax is) :
    ∃ f : UInt64 → UInt64,
      (∀ r ∈ getBadgesForWallet (machine.run is) w,
        ∀ r' ∈ getBadgesForWallet (machine.run is) w,
          r.badgeId < r'.badgeId → f r.badgeId < f r'.badgeId) ∧
        Noninterfering machine (concerns w)
          (fun answer answer' => answer' = renumberAnswer f answer)
          (RenumberedReads f w) is := by
  obtain ⟨f, hMono, hScan⟩ := exists_renumbering (w := w) hBelow
  have hListed {r : BadgeRecord A M}
      (hr : r ∈ getBadgesForWallet (machine.run is) w) :
      r.badgeId ∈ walletBadges (machine.run is) w := by
    rw [← scan_ids hBelow]
    exact List.mem_map_of_mem hr
  refine ⟨f, fun r hr r' hr' => hMono _ (hListed hr) _ (hListed hr'), ?_, ?_⟩
  · intro p i hp hKeep
    exact answer_renumbered hBelow hp hKeep hScan
  · intro p hp
    have hFollows := follows_run (w := w) (hBelow.earlier hp)
    exact ⟨fun m => (hFollows.flags m).symm, hScan p hp⟩

end ForgePass.Contracts.SoulboundNft
