import ForgePass.Contracts.CredentialBook
import ForgePass.Contracts.MintBook
import ForgePass.Contracts.PassportBook
import ForgePass.Contracts.ScoreBook
import ForgePass.Contracts.WalletIsolation
import ForgePass.Verified.Observation

/-!
# Nothing hidden in storage

Storage holds more than the readers return: an administrator, counters, lengths
and flags.  In the passport, trust-score and badge contracts none of it is
hidden: reachable storages that no caller and no reader can tell apart are
equal.  In the credential store one thing is, namely whether an empty vector
of credentials is stored or none at all; storages are told apart exactly by
what `Agree` compares.

Books turn the question round.  A reachable storage is a written book, so it
suffices that what callers see determines the book.
-/

namespace ForgePass.Contracts

open ForgePass.Verified
open ForgePass.Verified.Machine

namespace Passport

variable {A : Type} [DecidableEq A]

omit [DecidableEq A] in
/-- The administrator and the stored passports determine a book. -/
theorem store_eq_of_reads {c c' : Deployment A (Book A)}
    (hAdmin : adminOf (store c) = adminOf (store c'))
    (hReads : ∀ w, getPassport (store c) w = getPassport (store c') w) :
    c = c' := by
  cases c with
  | fresh =>
      cases c' with
      | fresh => rfl
      | installed a' book' => cases hAdmin
  | installed a book =>
      cases c' with
      | fresh => cases hAdmin
      | installed a' book' =>
          have hBook : book = book' := by
            funext w
            exact Option.map_injective (record_injective w) (hReads w)
          obtain rfl : a = a' := Option.some.inj hAdmin
          rw [hBook]

/-- Who administers the passport contract shows in the answer to a creation
signed by a given address. -/
theorem probes (s : Store A) : Probes machine adminOf .notInitialized
    (fun a => ⟨⟨{a}, 0⟩, .createPassport a []⟩) s := by
  intro a
  refine ⟨_, ?_, step_failure s _⟩
  cases getPassport s a with
  | none => simp
  | some r => simp

/-- Two reachable storages of the passport contract that callers cannot tell
apart are equal. -/
theorem indistinguishable_iff (is is' : List (Invocation A (Call A))) :
    machine.Indistinguishable (fun s s' => ∀ w, SameReads w s s')
        (machine.run is) (machine.run is') ↔
      machine.run is = machine.run is' := by
  constructor
  · intro h
    have hAdmin := (probes _).admin_eq (probes _) h.answer
    have hReads := fun w => (h.reads w).passport
    obtain ⟨c, hc⟩ := run_store is
    obtain ⟨c', hc'⟩ := run_store is'
    rw [hc, hc'] at hAdmin hReads ⊢
    rw [store_eq_of_reads hAdmin hReads]
  · intro h
    rw [h]
    exact fun cs => ⟨rfl, fun w => ⟨rfl, rfl⟩⟩

end Passport

namespace TrustScore

variable {A : Type} [DecidableEq A]

omit [DecidableEq A] in
/-- The administrator and the score histories determine a book. -/
theorem store_eq_of_reads {c c' : Deployment A (Book A)}
    (hAdmin : adminOf (store c) = adminOf (store c'))
    (hReads : ∀ w, getScoreHistory (store c) w = getScoreHistory (store c') w) :
    c = c' := by
  cases c with
  | fresh =>
      cases c' with
      | fresh => rfl
      | installed a' book' => cases hAdmin
  | installed a book =>
      cases c' with
      | fresh => cases hAdmin
      | installed a' book' =>
          have hBook : book = book' := by
            funext w
            have hScores := hReads w
            rw [getScoreHistory_store, getScoreHistory_store] at hScores
            exact Window.ext hScores
          obtain rfl : a = a' := Option.some.inj hAdmin
          rw [hBook]

/-- The same with a score for the trust-score contract. -/
theorem probes (is : List (Invocation A (Call A))) :
    Probes machine adminOf .notInitialized
      (fun a => ⟨⟨{a}, 0⟩, .anchorScore a 0 [] [] 0⟩) (machine.run is) :=
  fun _ => ⟨none, by simp, run_failure is _⟩

/-- So are two of the trust-score contract: history and mirrors are determined
by what the readers return. -/
theorem indistinguishable_iff (is is' : List (Invocation A (Call A))) :
    machine.Indistinguishable (fun s s' => ∀ w, SameReads w s s')
        (machine.run is) (machine.run is') ↔
      machine.run is = machine.run is' := by
  constructor
  · intro h
    have hAdmin := (probes is).admin_eq (probes is') h.answer
    have hReads := fun w => (h.reads w).history
    obtain ⟨c, hc⟩ := run_store is
    obtain ⟨c', hc'⟩ := run_store is'
    rw [hc, hc'] at hAdmin hReads ⊢
    rw [store_eq_of_reads hAdmin hReads]
  · intro h
    rw [h]
    exact fun cs => ⟨rfl, fun w => ⟨rfl, rfl⟩⟩

end TrustScore

namespace SoulboundNft

variable {A M : Type} [DecidableEq A] [DecidableEq M]

/-- Every reader returns the same. -/
structure SameReads (s s' : Store A M) : Prop where
  badge : ∀ id, getBadge s id = getBadge s' id
  badges : ∀ w, getBadgesForWallet s w = getBadgesForWallet s' w
  flag : ∀ w m, hasBadge s w m = hasBadge s' w m

omit [DecidableEq A] [DecidableEq M] in
/-- A numbered log is determined by its entries. -/
theorem Book.eq_of_mem_iff {x y : Book A M}
    (h : ∀ r, r ∈ x.badges ↔ r ∈ y.badges) : x = y :=
  Book.ext (Increasing.eq_of_mem_iff x.numbered.increasing
    y.numbered.increasing h)

/-- The administrator and the badges determine a book. -/
theorem store_eq_of_reads {c c' : Deployment A (Book A M)}
    (hAdmin : adminOf (store c) = adminOf (store c'))
    (hReads : ∀ id, getBadge (store c) id = getBadge (store c') id) :
    c = c' := by
  cases c with
  | fresh =>
      cases c' with
      | fresh => rfl
      | installed a' x' => cases hAdmin
  | installed a x =>
      cases c' with
      | fresh => cases hAdmin
      | installed a' x' =>
          have hBook : x = x' := by
            apply Book.eq_of_mem_iff
            intro r
            rw [x.mem_iff_find, x'.mem_iff_find]
            have hBadge := hReads r.badgeId
            rw [getBadge_store, getBadge_store] at hBadge
            rw [hBadge]
          obtain rfl : a = a' := Option.some.inj hAdmin
          rw [hBook]

/-- With a mint for the badge contract. -/
theorem probes [Inhabited M] (s : Store A M) :
    Probes machine adminOf .notInitialized
      (fun a => ⟨⟨{a}, 0⟩, .mint a default [] 0⟩) s := by
  intro a
  refine ⟨_, ?_, step_failure s _⟩
  cases hasBadge s a default with
  | false => simp
  | true => simp

/-- And two of the badge contract, as long as its counter had room: the counter
is the last id in the log. -/
theorem indistinguishable_iff [Inhabited M]
    {is is' : List (Invocation A (Call A M))} (hRoom : machine.Each RoomLeft is)
    (hRoom' : machine.Each RoomLeft is') :
    machine.Indistinguishable SameReads (machine.run is) (machine.run is') ↔
      machine.run is = machine.run is' := by
  constructor
  · intro h
    have hAdmin := (probes _).admin_eq (probes _) h.answer
    have hReads := h.reads.badge
    obtain ⟨c, hc⟩ := run_store hRoom
    obtain ⟨c', hc'⟩ := run_store hRoom'
    rw [hc, hc'] at hAdmin hReads ⊢
    rw [store_eq_of_reads hAdmin hReads]
  · intro h
    rw [h]
    exact fun cs => ⟨rfl, fun _ => rfl, fun _ => rfl, fun _ _ => rfl⟩

end SoulboundNft

namespace CredentialStore

variable {A S : Type} [DecidableEq A] [DecidableEq S]

omit [DecidableEq A] [DecidableEq S] in
theorem Agree.symm {w : A} {s s' : Store A S} (h : Agree w s s') :
    Agree w s' s :=
  ⟨h.admin.symm, h.credentials.symm, h.counter.symm, h.index.symm,
    fun i => (h.slots i).symm⟩

omit [DecidableEq S] in
theorem concerns_subject (i : Invocation A (Call A S)) :
    concerns (subject i.call) i = true := by
  obtain ⟨env, call⟩ := i
  cases call with
  | initializeAdmin a => rfl
  | addCredential w t sid d h => exact decide_eq_true rfl
  | addArchiveRecord w root count time cid => exact decide_eq_true rfl
  | removeCredentials w sids => exact decide_eq_true rfl

/-- Storages that agree at every wallet stay so, and answer alike. So agreement
is a bisimulation, and no sequence of calls tells them apart. -/
theorem agree_step {s s' : Store A S} (h : ∀ w, Agree w s s')
    (i : Invocation A (Call A S)) :
    Related Eq (fun s s' => ∀ w, Agree w s s') (machine.step s i)
      (machine.step s' i) := by
  refine ⟨(agree_kept (h _) (concerns_subject i)).answer, fun w => ?_⟩
  cases hConcerns : concerns w i with
  | true => exact (agree_kept (h w) hConcerns).state
  | false =>
      have hLeft := agree_erased (h w) (step_transition s i) hConcerns
      exact (agree_erased hLeft.symm (step_transition s' i) hConcerns).symm

/-- And with an archive record for the credential store. -/
theorem probes (is : List (Invocation A (Call A S))) :
    Probes machine adminOf .notInitialized
      (fun a => ⟨⟨{a}, 0⟩, .addArchiveRecord a (.replicate 32 0) 0 0 []⟩)
      (machine.run is) :=
  fun _ => ⟨none, by simp, run_failure is _⟩

/-- The next id is seen by issuing a credential under a new source id; there
always is one, since live sets are finite. -/
theorem counter_eq_of_answers [Inhabited S] {a : A} {s s' : Store A S}
    (hs : adminOf s = some a) (hs' : adminOf s' = some a)
    (h : ∀ i, (machine.step s i).1 = (machine.step s' i).1) (w : A) :
    credentialCounter s w = credentialCounter s' w := by
  obtain ⟨sid, hSid⟩ := Infinite.exists_notMem_finset
    ((getCredentials s w ++ getCredentials s' w).map
      CredentialRecord.sourceId).toFinset
  rw [List.mem_toFinset, List.map_append, List.mem_append, not_or] at hSid
  have hMissing : ∀ {t : Store A S},
      sid ∉ (getCredentials t w).map CredentialRecord.sourceId →
      ¬credentialExists t w default sid = true := by
    intro t hNone hExists
    obtain ⟨r, hr, -, hEq⟩ := (credentialExists_iff t w default sid).mp hExists
    exact hNone (List.mem_map.mpr ⟨r, hr, hEq⟩)
  have hSigned : ∀ {t : Store A S}, adminOf t = some a →
      SignedBy (adminOf t) ⟨{a}, 0⟩ := by
    intro t ht
    simp [ht]
  have hAnswer := h ⟨⟨{a}, 0⟩, .addCredential w default sid 0 []⟩
  rw [step_addCredential, step_addCredential, if_pos (hSigned hs),
    if_pos (hSigned hs'), if_neg (hMissing hSid.1),
    if_neg (hMissing hSid.2)] at hAnswer
  simp only [Except.ok.injEq, Reply.credentialId.injEq] at hAnswer
  exact (UInt64.add_left_inj 1).mp hAnswer

/-- Storages of the credential store that callers cannot tell apart are those
that agree at every wallet on what its calls read. -/
theorem indistinguishable_iff [Inhabited S]
    {is is' : List (Invocation A (Call A S))} (hRoom : machine.Each RoomLeft is)
    (hRoom' : machine.Each RoomLeft is') :
    machine.Indistinguishable (fun s s' => ∀ w, SameReads w s s')
        (machine.run is) (machine.run is') ↔
      ∀ w, Agree w (machine.run is) (machine.run is') := by
  constructor
  · intro h w
    have hAdmin := (probes is).admin_eq (probes is') h.answer
    have hAnswers := h.answer
    have hReads := h.reads w
    obtain ⟨c, hc⟩ := run_store hRoom
    obtain ⟨c', hc'⟩ := run_store hRoom'
    rw [hc, hc'] at hAdmin hReads hAnswers ⊢
    cases c with
    | fresh =>
        cases c' with
        | fresh => exact ⟨rfl, rfl, rfl, rfl, fun _ => rfl⟩
        | installed a' book' => cases hAdmin
    | installed a book =>
        cases c' with
        | fresh => cases hAdmin
        | installed a' book' =>
            obtain rfl : a = a' := Option.some.inj hAdmin
            have hArchives := hReads.archives
            rw [getArchiveRecords_store, getArchiveRecords_store] at hArchives
            refine ⟨rfl, hReads.credentials,
              counter_eq_of_answers rfl rfl hAnswers w, ?_, ?_⟩
            · rw [archiveIndex_store, archiveIndex_store, hArchives]
            · intro i
              show (book w).archives[_]? = (book' w).archives[_]?
              rw [hArchives]
  · exact indistinguishable_of_kept (fun s s' h w => (h w).reads)
      fun s s' i h => agree_step h i

/-- The same value under every key, but for an empty vector of credentials that
one storage may hold where the other holds none. -/
structure SameButEmpty (s s' : Store A S) : Prop where
  instanceTier : s.instanceTier = s'.instanceTier
  persistentTier : ∀ k, (∀ w, k ≠ .credentials w) →
    s.persistentTier.get k = s'.persistentTier.get k
  credentials : ∀ w, s.persistentTier.get (.credentials w) =
      s'.persistentTier.get (.credentials w) ∨
    (s.persistentTier.get (.credentials w) = none ∧
      s'.persistentTier.get (.credentials w) = some []) ∨
    (s.persistentTier.get (.credentials w) = some [] ∧
      s'.persistentTier.get (.credentials w) = none)

omit [DecidableEq A] [DecidableEq S] in
/-- Vectors that are read alike are the same, or one is empty and the other
missing. -/
theorem credentials_cases {α : Type} {x y : Option (List α)}
    (h : x.getD [] = y.getD []) :
    x = y ∨ (x = none ∧ y = some []) ∨ (x = some [] ∧ y = none) := by
  cases x with
  | none =>
      cases y with
      | none => exact .inl rfl
      | some l =>
          obtain rfl : [] = l := h
          exact .inr (.inl ⟨rfl, rfl⟩)
  | some l =>
      cases y with
      | none =>
          obtain rfl : l = [] := h
          exact .inr (.inr ⟨rfl, rfl⟩)
      | some l' =>
          obtain rfl : l = l' := h
          exact .inl rfl

omit [DecidableEq A] [DecidableEq S] in
/-- An absent vector and an empty one are read alike. -/
theorem SameButEmpty.agree {s s' : Store A S} (h : SameButEmpty s s') (w : A) :
    Agree w s s' where
  admin := congrArg (·.get .admin) h.instanceTier
  credentials := by
    unfold getCredentials
    rcases h.credentials w with hSame | ⟨hNone, hEmpty⟩ | ⟨hEmpty, hNone⟩
    · rw [hSame]
    · rw [hNone, hEmpty]
      rfl
    · rw [hNone, hEmpty]
      rfl
  counter := congrArg (fun t => (t.get (.credentialCounter w)).getD 0)
    h.instanceTier
  index := congrArg (fun t => (t.get (.archiveIndex w)).getD 0) h.instanceTier
  slots i := by
    apply h.persistentTier (.archiveRecord w (.ofNat i))
    intro v hEq
    cases hEq

omit [DecidableEq A] [DecidableEq S] in
/-- Written books that agree at every wallet are written alike, but for empty
vectors. -/
theorem sameButEmpty_of_agree {a : A} {book book' : Book A S}
    (h : ∀ w, Agree w (store (.installed a book)) (store (.installed a book'))) :
    SameButEmpty (store (.installed a book)) (store (.installed a book')) where
  instanceTier := by
    apply Storage.ext
    intro k
    cases k with
    | admin => rfl
    | credentials w => rfl
    | credentialCounter w =>
        have hCounter := congrArg UInt64.toNat (h w).counter
        rw [credentialCounter_store, credentialCounter_store,
          (book w).issued_toNat, (book' w).issued_toNat] at hCounter
        show (book w).counterEntry = (book' w).counterEntry
        unfold Account.counterEntry
        rw [hCounter]
    | archiveRecord w i => rfl
    | archiveIndex w =>
        have hIndex := congrArg UInt32.toNat (h w).index
        rw [archiveIndex_store, archiveIndex_store, (book w).archives_toNat,
          (book' w).archives_toNat] at hIndex
        show (book w).indexEntry = (book' w).indexEntry
        unfold Account.indexEntry
        rw [hIndex]
  persistentTier := by
    intro k hk
    cases k with
    | admin => rfl
    | credentials w => exact absurd rfl (hk w)
    | credentialCounter w => rfl
    | archiveRecord w i =>
        have hSlot := (h w).slots i.toNat
        unfold archiveAt at hSlot
        rw [UInt32.ofNat_toNat] at hSlot
        exact hSlot
    | archiveIndex w => rfl
  credentials w := credentials_cases (h w).credentials

/-- What agrees at every wallet is stored alike, but for empty vectors. -/
theorem agree_iff_sameButEmpty [Inhabited S]
    {is is' : List (Invocation A (Call A S))} (hRoom : machine.Each RoomLeft is)
    (hRoom' : machine.Each RoomLeft is') :
    (∀ w, Agree w (machine.run is) (machine.run is')) ↔
      SameButEmpty (machine.run is) (machine.run is') := by
  refine ⟨fun h => ?_, SameButEmpty.agree⟩
  obtain ⟨c, hc⟩ := run_store hRoom
  obtain ⟨c', hc'⟩ := run_store hRoom'
  rw [hc, hc'] at h ⊢
  cases c with
  | fresh =>
      cases c' with
      | fresh => exact ⟨rfl, fun _ _ => rfl, fun _ => .inl rfl⟩
      | installed a' book' => cases (h a').admin
  | installed a book =>
      cases c' with
      | fresh => cases (h a).admin
      | installed a' book' =>
          obtain rfl : a = a' := Option.some.inj (h a).admin
          exact sameButEmpty_of_agree h

end CredentialStore

/-! ## All four contracts -/

/-- **Nothing hidden.**  Reachable storages of the passport, trust-score and
badge contracts that no sequence of calls and no reader tells apart are equal.
Those of the credential store agree at every wallet on all that its calls read,
and hold the same value under every key but for an empty vector of credentials
in the place of none; storages that do so are not told apart.  The badge counter
and the counters of the credential store must not have wrapped. -/
theorem nothing_hidden {A S M : Type} [DecidableEq A] [DecidableEq S]
    [DecidableEq M] [Inhabited S] [Inhabited M] :
    (∀ is is' : List (Invocation A (Passport.Call A)),
      Passport.machine.Indistinguishable
          (fun s s' => ∀ w, Passport.SameReads w s s')
          (Passport.machine.run is) (Passport.machine.run is') ↔
        Passport.machine.run is = Passport.machine.run is') ∧
    (∀ is is' : List (Invocation A (TrustScore.Call A)),
      TrustScore.machine.Indistinguishable
          (fun s s' => ∀ w, TrustScore.SameReads w s s')
          (TrustScore.machine.run is) (TrustScore.machine.run is') ↔
        TrustScore.machine.run is = TrustScore.machine.run is') ∧
    (∀ is is' : List (Invocation A (SoulboundNft.Call A M)),
      SoulboundNft.machine.Each SoulboundNft.RoomLeft is →
      SoulboundNft.machine.Each SoulboundNft.RoomLeft is' →
      (SoulboundNft.machine.Indistinguishable SoulboundNft.SameReads
          (SoulboundNft.machine.run is) (SoulboundNft.machine.run is') ↔
        SoulboundNft.machine.run is = SoulboundNft.machine.run is')) ∧
    (∀ is is' : List (Invocation A (CredentialStore.Call A S)),
      CredentialStore.machine.Each CredentialStore.RoomLeft is →
      CredentialStore.machine.Each CredentialStore.RoomLeft is' →
      (CredentialStore.machine.Indistinguishable
          (fun s s' => ∀ w, CredentialStore.SameReads w s s')
          (CredentialStore.machine.run is)
          (CredentialStore.machine.run is') ↔
        ∀ w, CredentialStore.Agree w (CredentialStore.machine.run is)
          (CredentialStore.machine.run is')) ∧
      (CredentialStore.machine.Indistinguishable
          (fun s s' => ∀ w, CredentialStore.SameReads w s s')
          (CredentialStore.machine.run is)
          (CredentialStore.machine.run is') ↔
        CredentialStore.SameButEmpty (CredentialStore.machine.run is)
          (CredentialStore.machine.run is'))) := by
  refine ⟨Passport.indistinguishable_iff, TrustScore.indistinguishable_iff,
    fun _ _ hRoom hRoom' => SoulboundNft.indistinguishable_iff hRoom hRoom', ?_⟩
  intro is is' hRoom hRoom'
  have hAgree := CredentialStore.indistinguishable_iff hRoom hRoom'
  exact ⟨hAgree,
    hAgree.trans (CredentialStore.agree_iff_sameButEmpty hRoom hRoom')⟩

/-- A removal from a wallet without credentials stores an empty vector, which
nobody notices. -/
theorem nothing_hidden_emptyVector :
    let env : Env Nat := ⟨{0}, 100⟩
    let before : List (Invocation Nat (CredentialStore.Call Nat SignalType)) :=
      [⟨env, .initializeAdmin 0⟩,
        ⟨env, .addArchiveRecord 7 (Vector.replicate 32 0) 1 12 [0xcc]⟩]
    let after := before ++ [⟨env, .removeCredentials 7 []⟩]
    ((CredentialStore.machine.run before).persistentTier.get
        (.credentials 7)).isNone ∧
      ((CredentialStore.machine.run after).persistentTier.get
        (.credentials 7)).isSome ∧
      CredentialStore.machine.Indistinguishable
        (fun s s' => ∀ w, CredentialStore.SameReads w s s')
        (CredentialStore.machine.run before)
        (CredentialStore.machine.run after) := by
  intro env before after
  have hBefore : CredentialStore.machine.Each CredentialStore.RoomLeft before :=
    ⟨trivial, fun _ => by decide, trivial⟩
  have hAfter : CredentialStore.machine.Each CredentialStore.RoomLeft after :=
    CredentialStore.machine.each_concat.mpr ⟨hBefore, trivial⟩
  have hCredentials := (@nothing_hidden Nat SignalType MilestoneType _ _ _
    ⟨.githubPr⟩ ⟨.firstPr⟩).2.2.2 before after hBefore hAfter
  refine ⟨rfl, rfl, hCredentials.1.mpr fun w => ?_⟩
  have hRun : CredentialStore.machine.run after =
      CredentialStore.pruneCredentials (CredentialStore.machine.run before) 7
        [] := rfl
  rw [hRun]
  exact ⟨by simp, by simp [dropBy], by simp, by simp, by simp⟩

end ForgePass.Contracts
