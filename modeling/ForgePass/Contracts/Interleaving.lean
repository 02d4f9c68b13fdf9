import ForgePass.Contracts.Authorisation
import ForgePass.Contracts.Conflicts
import ForgePass.Contracts.CredentialConflicts
import ForgePass.Contracts.LedgerTime

/-!
# Requests in any order

The backend sends requests to four contracts about many wallets, and the ledger
may bring them in another order than they were sent in.  Once the contracts are
installed this shows only where two requests *clash*, which the four contracts
settle one by one, and in the dates of new passports: the time belongs to the
place in the ledger, and a request that comes to stand elsewhere does not take
it along.

From this comes an order that has to be kept, and no more: requests use
*channels*, the CID and the flag of a passport, the live set and the archives
of a wallet, its scores, and the badges.  Sequences that agree on every channel
lead to the same storage, but for those dates, and get the same answers.
-/

namespace ForgePass.Contracts.System

open ForgePass.Verified
open ForgePass.Verified.Machine

variable {A S M : Type} [DecidableEq A] [DecidableEq S] [DecidableEq M]

/-- Calls of one contract that clash. -/
def ClashIn : (k : Contract) → k.Store A S M → Invocation A (k.Call A S M) →
    Invocation A (k.Call A S M) → Prop
  | .passport => Passport.Clash
  | .credentialStore => CredentialStore.Clash
  | .trustScore => TrustScore.Clash
  | .soulboundNft => SoulboundNft.Clash

/-- Requests to one contract that clash there. Requests to different contracts
never do: no contract reads the storage of another. -/
inductive Clash (s : State A S M) : Request A S M → Request A S M → Prop
  | within (k : Contract) (i j : Invocation A (k.Call A S M))
      (h : ClashIn k (s k) i j) : Clash s ⟨k, i⟩ ⟨k, j⟩

/-- Contract by contract: in a reachable state with an administrator two calls
commute exactly if they do not clash. -/
theorem commutes_iff_not_clashIn : ∀ (k : Contract)
    {is : List (Invocation A (k.Call A S M))} {a : A},
    adminOf k ((contract k).run is) = some a → ∀ i j,
      (contract k).Commutes ((contract k).run is) i j ↔
        ¬ClashIn k ((contract k).run is) i j
  | .passport, _, _, hAdmin => Passport.commutes_iff_not_clash hAdmin
  | .credentialStore, _, _, hAdmin =>
      CredentialStore.commutes_iff_not_clash hAdmin
  | .trustScore, _, _, hAdmin => TrustScore.commutes_iff_not_clash hAdmin
  | .soulboundNft, _, _, hAdmin => SoulboundNft.commutes_iff_not_clash hAdmin

/-- Every contract has its administrator: the bootstraps are over, and their
order is not part of the question. -/
def AllInstalled (s : State A S M) : Prop := ∀ k, ∃ a, adminOf k (s k) = some a

/-- Nobody is uninstalled. -/
theorem AllInstalled.step {s : State A S M} (h : AllInstalled s)
    (i : Request A S M) : AllInstalled (host.step s i).2 := by
  intro k
  obtain ⟨a, ha⟩ := h k
  obtain ⟨k', i⟩ := i
  show ∃ a, adminOf k (Function.update s k' _ k) = some a
  by_cases hk : k = k'
  · subst hk
    rw [Function.update_self]
    exact ⟨a, (adminGuarded k).keeps ha i⟩
  · rw [Function.update_of_ne hk]
    exact ⟨a, ha⟩

omit [DecidableEq M] in
/-- Requests to one contract clash as its calls do. -/
theorem clash_within_iff {s : State A S M} {k : Contract}
    {i j : Invocation A (k.Call A S M)} :
    Clash s ⟨k, i⟩ ⟨k, j⟩ ↔ ClashIn k (s k) i j :=
  ⟨fun h => by cases h; assumption, .within k i j⟩

/-- Executed at one time, two requests commute exactly if they do not clash. -/
theorem commutes_iff_not_clash {rs : List (Request A S M)}
    (hInstalled : AllInstalled (host.run rs)) (i j : Request A S M) :
    host.Commutes (host.run rs) i j ↔ ¬Clash (host.run rs) i j := by
  obtain ⟨k, i⟩ := i
  obtain ⟨k', j⟩ := j
  by_cases hk : k = k'
  · subst hk
    obtain ⟨a, hAdmin⟩ := hInstalled k
    have hSelf : host.Commutes (host.run rs) ⟨k, i⟩ ⟨k, j⟩ ↔
        (contract k).Commutes (host.run rs k) i j :=
      @family_commutes_self_iff _ _ _ _ _ contract (host.run rs) k i j
    have hRun : host.run rs k = (contract k).run (rs.filterMap (inputFor k)) :=
      family_run rs k
    rw [hRun] at hSelf hAdmin
    rw [clash_within_iff, hRun]
    exact hSelf.trans (commutes_iff_not_clashIn k hAdmin i j)
  · have hCommutes : host.Commutes (host.run rs) ⟨k, i⟩ ⟨k', j⟩ :=
      family_commutes_of_ne _ hk
    have hNot : ¬Clash (host.run rs) ⟨k, i⟩ ⟨k', j⟩ := by
      intro hClash
      cases hClash
      exact hk rfl
    simp [hCommutes, hNot]

/-! ## The time of the place -/

omit [DecidableEq M] in
theorem clashIn_retimed_iff (now : UInt64) : ∀ (k : Contract)
    (s : k.Store A S M) (i j : Invocation A (k.Call A S M)),
      ClashIn k s (i.retimed now) (j.retimed now) ↔ ClashIn k s i j
  | .passport, s, i, j => Passport.clash_retimed_iff s i j now
  | .credentialStore, _, _, _ => Iff.rfl
  | .trustScore, _, _, _ => Iff.rfl
  | .soulboundNft, _, _, _ => Iff.rfl

omit [DecidableEq M] in
/-- The time does not decide whether requests clash. -/
theorem clash_retimed_iff (s : State A S M) (i j : Request A S M)
    (now : UInt64) : Clash s (retimed now i) (retimed now j) ↔ Clash s i j := by
  obtain ⟨k, i⟩ := i
  obtain ⟨k', j⟩ := j
  by_cases hk : k = k'
  · subst hk
    exact clash_within_iff.trans
      ((clashIn_retimed_iff now k (s k) i j).trans clash_within_iff.symm)
  · constructor
    · intro hClash
      cases hClash
      exact absurd rfl hk
    · intro hClash
      cases hClash
      exact absurd rfl hk

/-- A request that gives no passport gives none after another one either:
passports are never taken back, and who administers is settled. -/
theorem not_creates_step {s : State A S M} (hInstalled : AllInstalled s)
    {i : Request A S M} (h : ¬Creates s i) (j : Request A S M) :
    ¬Creates (host.step s j).2 i := by
  obtain ⟨k, i⟩ := i
  obtain ⟨k', j⟩ := j
  cases k with
  | passport =>
      by_cases hk : k' = .passport
      · subst hk
        obtain ⟨a, hAdmin⟩ := hInstalled .passport
        exact fun hAfter => h (Passport.Creates.of_step hAdmin hAfter)
      · have hSame : (host.step s ⟨k', j⟩).2 .passport = s .passport :=
          Function.update_of_ne (Ne.symm hk) _ _
        show ¬Passport.Creates ((host.step s ⟨k', j⟩).2 .passport) i
        rw [hSame]
        exact h
  | credentialStore => exact h
  | trustScore => exact h
  | soulboundNft => exact h

/-- A request that gives a passport shows in its date where it stood. So two
places of different times cannot be exchanged. -/
theorem time_of_creates {s : State A S M} {now later : UInt64}
    {i j : Request A S M}
    (h : host.CommutesAt (retimed now) (retimed later) s i j)
    (hCreates : Creates s i) : now = later := by
  obtain ⟨k, env, call⟩ := i
  cases k with
  | credentialStore => exact hCreates.elim
  | trustScore => exact hCreates.elim
  | soulboundNft => exact hCreates.elim
  | passport =>
      obtain ⟨w, cid, rfl, hSigned, hNone⟩ := hCreates
      have hFirst : (Passport.machine.step (s .passport)
          ⟨⟨env.auths, now⟩, .createPassport w cid⟩).1 = .ok () :=
        Passport.Creates.accepted hSigned hNone
      -- it comes first, and the other request leaves the date alone
      obtain ⟨r, hr, hDate⟩ := createdAt_step (s := (host.step s
        (retimed now ⟨.passport, env, .createPassport w cid⟩)).2)
        (Passport.getPassport_of_accepted hFirst) (retimed later j)
      -- it comes second, and is accepted as well
      have hSecond : (Passport.machine.step
          ((host.step s (retimed now j)).2 .passport)
            ⟨⟨env.auths, later⟩, .createPassport w cid⟩).1 = .ok () := by
        have hSame := h.left
        exact (eq_of_heq (Sigma.mk.inj hSame).2).trans hFirst
      have hLater := Passport.getPassport_of_accepted hSecond
      have hState := congrArg
        (fun s : State A S M => Passport.getPassport (s .passport) w) h.state
      have hEq := hr.symm.trans (hState.trans hLater)
      rw [Option.some.inj hEq] at hDate
      exact hDate.symm

/-- **Requests that clash.**  Once all contracts are installed, two requests in
ledgers of times `now` and `later` can change places, with no difference in
answers and storage, exactly if they do not clash and, should the times differ,
none of them gives a passport. -/
theorem requests_commute_iff {rs : List (Request A S M)}
    (hInstalled : AllInstalled (host.run rs)) (now later : UInt64)
    (i j : Request A S M) :
    host.CommutesAt (retimed now) (retimed later) (host.run rs) i j ↔
      ¬Clash (host.run rs) i j ∧
        (now = later ∨
          ¬Creates (host.run rs) i ∧ ¬Creates (host.run rs) j) := by
  have hOnce : (now = later ∨
      ¬Creates (host.run rs) i ∧ ¬Creates (host.run rs) j) →
        (host.CommutesAt (retimed now) (retimed later) (host.run rs) i j ↔
          ¬Clash (host.run rs) i j) := by
    intro hTime
    rw [← clash_retimed_iff _ i j now, ← commutes_iff_not_clash hInstalled]
    rcases hTime with rfl | ⟨hi, hj⟩
    · exact commutesAt_iff rfl rfl
    · have hi' := not_creates_step hInstalled hi (retimed now j)
      have hj' := not_creates_step hInstalled hj (retimed now i)
      exact commutesAt_iff (by rw [step_retimed hi', step_retimed hi'])
        (by rw [step_retimed hj', step_retimed hj'])
  constructor
  · intro h
    have hTime : now = later ∨
        ¬Creates (host.run rs) i ∧ ¬Creates (host.run rs) j := by
      by_cases hSame : now = later
      · exact .inl hSame
      · exact .inr ⟨fun hi => hSame (time_of_creates h hi),
          fun hj => hSame (time_of_creates h.symm hj)⟩
    exact ⟨(hOnce hTime).mp h, hTime⟩
  · rintro ⟨hNot, hTime⟩
    exact (hOnce hTime).mpr hNot

/-- The owner's CID and the administrator's flag can change places, two CIDs
cannot, and two new passports can if their ledgers close at one time. -/
theorem requests_commute_iff_deployment :
    let env : Env Nat := ⟨{0}, 0⟩
    let publish : HostString → Request Nat SignalType MilestoneType := fun cid =>
      ⟨.passport, ⟨⟨{7}, 0⟩, .updateMetadataCid 7 cid⟩⟩
    let create : Nat → Request Nat SignalType MilestoneType := fun w =>
      ⟨.passport, ⟨env, .createPassport w [4]⟩⟩
    let CanSwap := fun now later =>
      host.CommutesAt (retimed now) (retimed later) (host.run deployment)
    CanSwap 200 201 (publish [2]) ⟨.passport, ⟨env, .setSybilFlag 7 false⟩⟩ ∧
      ¬CanSwap 200 201 (publish [2]) (publish [3]) ∧
      CanSwap 200 200 (create 8) (create 9) ∧
      ¬CanSwap 200 201 (create 8) (create 9) := by
  intro env publish create CanSwap
  have hInstalled : AllInstalled (host.run deployment) :=
    fun k => ⟨0, adminOf_of_installed (installed_deployment k)⟩
  have hApart : ¬Clash (host.run deployment) (create 8) (create 9) := by
    rw [clash_within_iff]
    rintro ⟨a, o, o', -, -, -, hSubject, -⟩
    exact absurd hSubject (by decide)
  refine ⟨(requests_commute_iff hInstalled 200 201 _ _).mpr ⟨?_, .inr ⟨?_, ?_⟩⟩,
    ?_, (requests_commute_iff hInstalled 200 200 _ _).mpr ⟨hApart, .inl rfl⟩, ?_⟩
  · rw [clash_within_iff]
    rintro ⟨a, o, o', -, ho, ho', -, hClash⟩
    obtain rfl : .publish [2] = o := by simpa [Passport.operation] using ho
    obtain ⟨-, rfl⟩ : a ∈ env.auths ∧ .flag false = o' := by
      simpa [Passport.operation] using ho'
    exact hClash
  · rintro ⟨w, cid, hCall, -⟩
    cases hCall
  · rintro ⟨w, cid, hCall, -⟩
    cases hCall
  · intro hSwap
    refine ((requests_commute_iff hInstalled 200 201 _ _).mp hSwap).1 ?_
    rw [clash_within_iff]
    exact ⟨0, .publish [2], .publish [3], rfl, rfl, rfl, rfl, rfl, by decide⟩
  · intro hSwap
    rcases ((requests_commute_iff hInstalled 200 201 _ _).mp hSwap).2 with
      hTime | ⟨hNone, -⟩
    · exact absurd hTime (by decide)
    · exact hNone ⟨8, [4], rfl, ⟨0, rfl, by decide⟩, rfl⟩

/-! ## Channels -/

/-- What requests have to keep their order about. Badges are one channel for
all wallets, since all take their numbers from one counter. -/
inductive Channel (A : Type) where
  | cid (wallet : A)
  | flag (wallet : A)
  | live (wallet : A)
  | archives (wallet : A)
  | scores (wallet : A)
  | badges
  deriving DecidableEq

/-- The channels of a call.  A repeated `initialize` fails wherever it stands;
it is put on some channel all the same. -/
def channelsIn : (k : Contract) → Invocation A (k.Call A S M) → List (Channel A)
  | .passport, i =>
      match i.call with
      | .initializeAdmin a => [.cid a]
      | .createPassport w _ => [.cid w, .flag w]
      | .updateMetadataCid w _ => [.cid w]
      | .setSybilFlag w _ => [.flag w]
  | .credentialStore, i =>
      match i.call with
      | .initializeAdmin a => [.live a]
      | .addCredential w _ _ _ _ => [.live w]
      | .addArchiveRecord w _ _ _ _ => [.archives w]
      | .removeCredentials w _ => [.live w, .archives w]
  | .trustScore, i => [.scores (TrustScore.subject i.call)]
  | .soulboundNft, _ => [.badges]

/-- The request uses the channel. It may use several: a creation writes CID and
flag at once. -/
def on (c : Channel A) (i : Request A S M) : Bool := c ∈ channelsIn i.1 i.2

omit [DecidableEq S] [DecidableEq M] in
/-- Every request is on some channel. -/
theorem exists_on (i : Request A S M) : ∃ c, on c i = true := by
  obtain ⟨k, env, call⟩ := i
  cases k with
  | passport => cases call <;> exact ⟨_, decide_eq_true List.mem_cons_self⟩
  | credentialStore => cases call <;> exact ⟨_, decide_eq_true List.mem_cons_self⟩
  | trustScore => exact ⟨_, decide_eq_true List.mem_cons_self⟩
  | soulboundNft => exact ⟨_, decide_eq_true List.mem_cons_self⟩

omit [DecidableEq S] [DecidableEq M] in
/-- A creation uses both channels of its wallet, so only a CID and a flag could
miss each other, and these do not clash. -/
theorem passport_shared {s : Passport.Store A}
    {i j : Invocation A (Passport.Call A)} (h : Passport.Clash s i j) :
    ∃ c, c ∈ channelsIn (S := S) (M := M) .passport i ∧
      c ∈ channelsIn (S := S) (M := M) .passport j := by
  obtain ⟨a, o, o', -, ho, ho', hSubject, hClash⟩ := h
  obtain ⟨env, call⟩ := i
  obtain ⟨env', call'⟩ := j
  cases call with
  | initializeAdmin b => cases ho
  | createPassport w cid =>
      cases call' with
      | initializeAdmin b => cases ho'
      | createPassport v cid' =>
          obtain rfl : w = v := hSubject
          exact ⟨.cid w, by simp [channelsIn], by simp [channelsIn]⟩
      | updateMetadataCid v cid' =>
          obtain rfl : w = v := hSubject
          exact ⟨.cid w, by simp [channelsIn], by simp [channelsIn]⟩
      | setSybilFlag v b =>
          obtain rfl : w = v := hSubject
          exact ⟨.flag w, by simp [channelsIn], by simp [channelsIn]⟩
  | updateMetadataCid w cid =>
      cases call' with
      | initializeAdmin b => cases ho'
      | createPassport v cid' =>
          obtain rfl : w = v := hSubject
          exact ⟨.cid w, by simp [channelsIn], by simp [channelsIn]⟩
      | updateMetadataCid v cid' =>
          obtain rfl : w = v := hSubject
          exact ⟨.cid w, by simp [channelsIn], by simp [channelsIn]⟩
      | setSybilFlag v b =>
          obtain ⟨-, rfl⟩ : w ∈ env.auths ∧ .publish cid = o := by
            simpa [Passport.operation] using ho
          obtain ⟨-, rfl⟩ : a ∈ env'.auths ∧ .flag b = o' := by
            simpa [Passport.operation] using ho'
          exact hClash.elim
  | setSybilFlag w b =>
      cases call' with
      | initializeAdmin b' => cases ho'
      | createPassport v cid' =>
          obtain rfl : w = v := hSubject
          exact ⟨.flag w, by simp [channelsIn], by simp [channelsIn]⟩
      | updateMetadataCid v cid' =>
          obtain ⟨-, rfl⟩ : a ∈ env.auths ∧ .flag b = o := by
            simpa [Passport.operation] using ho
          obtain ⟨-, rfl⟩ : v ∈ env'.auths ∧ .publish cid' = o' := by
            simpa [Passport.operation] using ho'
          exact hClash.elim
      | setSybilFlag v b' =>
          obtain rfl : w = v := hSubject
          exact ⟨.flag w, by simp [channelsIn], by simp [channelsIn]⟩

omit [DecidableEq M] in
/-- A removal uses both channels of its wallet, so only an addition and an
archive could miss each other, and these do not clash. -/
theorem credential_shared {s : CredentialStore.Store A S}
    {i j : Invocation A (CredentialStore.Call A S)}
    (h : CredentialStore.Clash s i j) :
    ∃ c, c ∈ channelsIn (M := M) .credentialStore i ∧
      c ∈ channelsIn (M := M) .credentialStore j := by
  obtain ⟨a, o, o', -, ho, ho', hSubject, hClash⟩ := h
  obtain ⟨env, call⟩ := i
  obtain ⟨env', call'⟩ := j
  cases call with
  | initializeAdmin b => simp [CredentialStore.operation] at ho
  | addCredential w t sid d hash =>
      cases call' with
      | initializeAdmin b => simp [CredentialStore.operation] at ho'
      | addCredential v t' sid' d' hash' =>
          obtain rfl : w = v := hSubject
          exact ⟨.live w, by simp [channelsIn], by simp [channelsIn]⟩
      | addArchiveRecord v root count time cid =>
          obtain ⟨-, rfl⟩ : a ∈ env.auths ∧ .add w t sid d hash = o := by
            simpa [CredentialStore.operation] using ho
          obtain ⟨-, rfl⟩ : a ∈ env'.auths ∧
              .anchor ⟨root, count, time, cid⟩ = o' := by
            simpa [CredentialStore.operation] using ho'
          exact hClash.elim
      | removeCredentials v sids =>
          obtain rfl : w = v := hSubject
          exact ⟨.live w, by simp [channelsIn], by simp [channelsIn]⟩
  | addArchiveRecord w root count time cid =>
      cases call' with
      | initializeAdmin b => simp [CredentialStore.operation] at ho'
      | addCredential v t sid d hash =>
          obtain ⟨-, rfl⟩ : a ∈ env.auths ∧
              .anchor ⟨root, count, time, cid⟩ = o := by
            simpa [CredentialStore.operation] using ho
          obtain ⟨-, rfl⟩ : a ∈ env'.auths ∧ .add v t sid d hash = o' := by
            simpa [CredentialStore.operation] using ho'
          exact hClash.elim
      | addArchiveRecord v root' count' time' cid' =>
          obtain rfl : w = v := hSubject
          exact ⟨.archives w, by simp [channelsIn], by simp [channelsIn]⟩
      | removeCredentials v sids =>
          obtain rfl : w = v := hSubject
          exact ⟨.archives w, by simp [channelsIn], by simp [channelsIn]⟩
  | removeCredentials w sids =>
      cases call' with
      | initializeAdmin b => simp [CredentialStore.operation] at ho'
      | addCredential v t sid d hash =>
          obtain rfl : w = v := hSubject
          exact ⟨.live w, by simp [channelsIn], by simp [channelsIn]⟩
      | addArchiveRecord v root count time cid =>
          obtain rfl : w = v := hSubject
          exact ⟨.archives w, by simp [channelsIn], by simp [channelsIn]⟩
      | removeCredentials v sids' =>
          obtain rfl : w = v := hSubject
          exact ⟨.live w, by simp [channelsIn], by simp [channelsIn]⟩

omit [DecidableEq M] in
/-- Calls that clash share a channel. -/
theorem shared_of_clashIn : ∀ (k : Contract) {s : k.Store A S M}
    {i j : Invocation A (k.Call A S M)}, ClashIn k s i j →
      ∃ c, c ∈ channelsIn k i ∧ c ∈ channelsIn k j
  | .passport, _, _, _, h => passport_shared h
  | .credentialStore, _, _, _, h => credential_shared h
  | .trustScore, s, i, j, ⟨_, _, _, _, _, _, hSubject, _⟩ => by
      refine ⟨.scores (TrustScore.subject i.call), List.mem_cons_self, ?_⟩
      rw [hSubject]
      exact List.mem_cons_self
  | .soulboundNft, _, _, _, _ =>
      ⟨.badges, List.mem_cons_self, List.mem_cons_self⟩

omit [DecidableEq M] in
/-- Requests that share no channel do not clash. -/
theorem not_clash_of_apart {s : State A S M} {i j : Request A S M}
    (h : Apart on i j) : ¬Clash s i j := by
  rintro ⟨k, i, j, hClash⟩
  obtain ⟨c, hi, hj⟩ := shared_of_clashIn k hClash
  have hNot : on c (⟨k, j⟩ : Request A S M) = false := h c (decide_eq_true hi)
  rw [on, decide_eq_false_iff_not] at hNot
  exact hNot hj

/-- Sequences of the very same requests, times included. -/
theorem channels_decide_timed {rs : List (Request A S M)}
    (hInstalled : AllInstalled (host.run rs)) {is js : List (Request A S M)}
    (h : ∀ c, is.filter (on c) = js.filter (on c)) :
    host.runFrom (host.run rs) is = host.runFrom (host.run rs) js ∧
      ∀ c, (host.historyFrom (host.run rs) is).filter (fun e => on c e.1) =
        (host.historyFrom (host.run rs) js).filter (fun e => on c e.1) := by
  let Reached (s : State A S M) := AllInstalled s ∧ ∃ rs, s = host.run rs
  have hKeep : ∀ s i, Reached s → Reached (host.step s i).2 := by
    rintro s i ⟨hAll, rs, rfl⟩
    exact ⟨hAll.step i, rs ++ [i], (host.run_concat rs i).symm⟩
  have hApart : ∀ i j, Apart on i j → ∀ s, Reached s → host.Commutes s i j := by
    rintro i j hApart s ⟨hAll, rs, rfl⟩
    exact (commutes_iff_not_clash hAll i j).mpr (not_clash_of_apart hApart)
  have hReordered := (reordered_iff_filter exists_on).mpr h
  obtain ⟨hRun, hHistory⟩ :=
    hReordered.runFrom hKeep hApart ⟨hInstalled, rs, rfl⟩
  refine ⟨hRun, fun c => hHistory.filter_eq ?_⟩
  intro e e' he he' hSeparate
  rw [hSeparate c he] at he'
  cases he'

/-! ## Sequences under the clock of the ledger -/

omit [DecidableEq S] [DecidableEq M] in
/-- A channel does not depend on the time. -/
theorem on_retimed (c : Channel A) (now : UInt64) (r : Request A S M) :
    on c (retimed now r) = on c r := by
  obtain ⟨k, i⟩ := r
  cases k <;> rfl

omit [DecidableEq S] [DecidableEq M] in
/-- What a sequence has on a channel, without times. -/
theorem filter_untimed (c : Channel A) (is : List (Request A S M)) :
    (is.map untimed).filter (on c) = (is.filter (on c)).map untimed := by
  rw [List.filter_map]
  congr 2
  funext r
  exact on_retimed c 0 r

omit [DecidableEq A] [DecidableEq S] [DecidableEq M] in
/-- Requests of one time are known without it. -/
theorem retimed_untimed {now : UInt64} {is : List (Request A S M)}
    (h : ∀ r ∈ is, r.2.env.timestamp = now) :
    (is.map untimed).map (retimed now) = is := by
  rw [List.map_map]
  have hEach : ∀ r ∈ is, (retimed now ∘ untimed) r = r := by
    intro r hr
    rw [← h r hr]
    rfl
  rw [List.map_congr_left hEach, List.map_id']

omit [DecidableEq A] [DecidableEq S] [DecidableEq M] in
theorem allInstalled_undated {s : State A S M} (h : AllInstalled s) :
    AllInstalled (undated s) := by
  intro k
  obtain ⟨a, ha⟩ := h k
  refine ⟨a, ?_⟩
  cases k <;> exact ha

/-- **Requests in any order.**  Two sequences that have the same requests, in
the same order, on every channel, in ledgers of whatever times, do the same to
installed contracts but for the dates of new passports, and the requests on each
channel get the same answers.  If all ledgers close at one time, the dates are
the same too. -/
theorem channels_decide {rs : List (Request A S M)}
    (hInstalled : AllInstalled (host.run rs)) {is js : List (Request A S M)}
    (h : ∀ c, (is.filter (on c)).map untimed = (js.filter (on c)).map untimed) :
    undated (host.runFrom (host.run rs) is) =
        undated (host.runFrom (host.run rs) js) ∧
      (∀ c, ((host.historyFrom (host.run rs) is).filter
            (fun e => on c e.1)).map (fun e => (untimed e.1, e.2)) =
          ((host.historyFrom (host.run rs) js).filter
            (fun e => on c e.1)).map fun e => (untimed e.1, e.2)) ∧
        ((∃ now, ∀ r ∈ is ++ js, r.2.env.timestamp = now) →
          host.runFrom (host.run rs) is = host.runFrom (host.run rs) js) := by
  -- without dates and times both sequences are the same on every channel
  have hAll : AllInstalled (host.run (rs.map untimed)) := by
    rw [run_undated]
    exact allInstalled_undated hInstalled
  have hSame : ∀ c, (is.map untimed).filter (on c) =
      (js.map untimed).filter (on c) := by
    intro c
    rw [filter_untimed, filter_untimed, h c]
  obtain ⟨hRun, hHistory⟩ := channels_decide_timed hAll hSame
  have hOn : ∀ c, (fun e : Request A S M × Response => on c e.1) ∘
      (fun e : Request A S M × Response => (untimed e.1, e.2)) =
        fun e => on c e.1 := by
    intro c
    funext e
    exact on_retimed c 0 e.1
  refine ⟨?_, ?_, ?_⟩
  · rw [← runFrom_undated, ← runFrom_undated, ← run_undated, hRun]
  · intro c
    have hc := hHistory c
    rw [run_undated, historyFrom_undated, historyFrom_undated, List.filter_map,
      List.filter_map, hOn] at hc
    exact hc
  · rintro ⟨now, hNow⟩
    refine (channels_decide_timed hInstalled fun c => ?_).1
    have hIs : ∀ r ∈ is.filter (on c), r.2.env.timestamp = now := fun r hr =>
      hNow r (List.mem_append_left _ (List.mem_of_mem_filter hr))
    have hJs : ∀ r ∈ js.filter (on c), r.2.env.timestamp = now := fun r hr =>
      hNow r (List.mem_append_right _ (List.mem_of_mem_filter hr))
    rw [← retimed_untimed hIs, h c, retimed_untimed hJs]

/-- What the backend sends to set up a contributor, in two orders: the passport
has the date of its ledger, the rest is the same. -/
theorem channels_decide_onboarding :
    let env : Nat → UInt64 → Env Nat := fun a time => ⟨{a}, time⟩
    let add : UInt64 → Request Nat SignalType MilestoneType := fun time =>
      ⟨.credentialStore, ⟨env 0 time, .addCredential 8 .githubPr [3] 150 [0xaa]⟩⟩
    let archive : UInt64 → Request Nat SignalType MilestoneType := fun time =>
      ⟨.credentialStore,
        ⟨env 0 time, .addArchiveRecord 8 (Vector.replicate 32 0) 1 12 [0xcc]⟩⟩
    let create : UInt64 → Request Nat SignalType MilestoneType := fun time =>
      ⟨.passport, ⟨env 0 time, .createPassport 8 [4]⟩⟩
    let publish : UInt64 → Request Nat SignalType MilestoneType := fun time =>
      ⟨.passport, ⟨env 8 time, .updateMetadataCid 8 [5]⟩⟩
    let s := host.runFrom (host.run deployment)
      [create 200, publish 200, add 205, archive 205]
    let s' := host.runFrom (host.run deployment)
      [archive 200, add 200, create 205, publish 210]
    undated s = undated s' ∧
      (Passport.getPassport (s .passport) 8).map PassportRecord.createdAt =
        some 200 ∧
      (Passport.getPassport (s' .passport) 8).map PassportRecord.createdAt =
        some 205 := by
  intro env add archive create publish s s'
  have hInstalled : AllInstalled (host.run deployment) :=
    fun k => ⟨0, adminOf_of_installed (installed_deployment k)⟩
  refine ⟨(channels_decide hInstalled ?_).1, rfl, rfl⟩
  intro c
  rw [← filter_untimed, ← filter_untimed]
  show [create 0, publish 0, add 0, archive 0].filter (on c) =
    [archive 0, add 0, create 0, publish 0].filter (on c)
  cases c <;>
    simp [on, channelsIn, create, publish, add, archive, List.filter_cons]

end ForgePass.Contracts.System
