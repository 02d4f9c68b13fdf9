import ForgePass.Contracts.System

/-!
# The authorisation frame of the system

Over whole runs of the four contracts: storage is as deployed until the first
successful initialisation, the administrator it installs never changes, and
without that address's authorisation no call changes anything but the metadata
CID of a passport whose wallet authorised the call.
-/

namespace ForgePass.Contracts.System

open ForgePass.Verified

variable {A S M : Type} [DecidableEq A]

/-! ## Passports without the administrator -/

/-- The fields of a passport that its owner cannot write. -/
def fixedFields (r : PassportRecord A) : A × UInt64 × Bool :=
  (r.wallet, r.createdAt, r.sybilFlagged)

/-- Without the administrator, a call leaves the passport of `v` alone or
rewrites its CID under the authorisation of `v`. -/
theorem passport_step {s : Passport.Store A} {a : A}
    (ha : Passport.adminOf s = some a)
    {i : Invocation A (Passport.Call A)} (hAuth : a ∉ i.env.auths) (v : A) :
    Passport.getPassport (Passport.machine.step s i).2 v =
        Passport.getPassport s v ∨
      v ∈ i.env.auths ∧ ∃ r cid, Passport.getPassport s v = some r ∧
        Passport.getPassport (Passport.machine.step s i).2 v =
          some { r with ipfsCid := cid } := by
  by_cases hUpdate : Passport.OwnerUpdate i
  · obtain ⟨env, call⟩ := i
    obtain ⟨w, cid, rfl, hOwner⟩ := hUpdate
    rcases Passport.ownerUpdate_step s env w cid with hSame | ⟨-, r, hr, hPut⟩
    · exact .inl (by rw [hSame])
    · rw [hPut, Passport.getPassport_putPassport]
      by_cases hv : v = w
      · subst hv
        exact .inr ⟨hOwner, r, cid, hr, if_pos rfl⟩
      · exact .inl (if_neg hv)
  · exact .inl (by rw [Passport.adminGuarded.frame ha hAuth hUpdate])

/-- Calls without the administrator and without the wallet leave its passport
alone. -/
theorem getPassport_runFrom {s : Passport.Store A} {a : A}
    (ha : Passport.adminOf s = some a) {w : A}
    {is : List (Invocation A (Passport.Call A))}
    (hCalls : ∀ i ∈ is, a ∉ i.env.auths ∧ w ∉ i.env.auths) :
    Passport.getPassport (Passport.machine.runFrom s is) w =
      Passport.getPassport s w := by
  induction is generalizing s with
  | nil => rfl
  | cons i is ih =>
      obtain ⟨hAdmin, hOwner⟩ := hCalls i (by simp)
      have hRest := ih (Passport.adminGuarded.keeps ha i)
        fun j hj => hCalls j (by simp [hj])
      apply hRest.trans
      rcases passport_step ha hAdmin w with hSame | ⟨hAuth, -⟩
      · exact hSame
      · exact absurd hAuth hOwner

/-- Calls without the administrator leave the fixed fields of every passport
alone, and create and remove none. -/
theorem fixedFields_runFrom {s : Passport.Store A} {a : A}
    (ha : Passport.adminOf s = some a) (v : A)
    {is : List (Invocation A (Passport.Call A))}
    (hCalls : ∀ i ∈ is, a ∉ i.env.auths) :
    (Passport.getPassport (Passport.machine.runFrom s is) v).map fixedFields =
      (Passport.getPassport s v).map fixedFields := by
  induction is generalizing s with
  | nil => rfl
  | cons i is ih =>
      have hRest := ih (Passport.adminGuarded.keeps ha i)
        fun j hj => hCalls j (by simp [hj])
      apply hRest.trans
      rcases passport_step ha (hCalls i (by simp)) v with
        hSame | ⟨-, r, cid, hr, hNew⟩
      · rw [hSame]
      · rw [hNew, hr]
        rfl

/-! ## The frame -/

variable [DecidableEq S] [DecidableEq M]

/-- In the run, an initialising call of contract `k` succeeded and installed
`a`. -/
def Installed (is : List (Request A S M)) (k : Contract) (a : A) : Prop :=
  ∃ i r, ((⟨k, i⟩, ⟨k, r⟩) : Request A S M × Response) ∈ host.history is ∧
    installs k (i, r) = some a

/-- Everything that the contracts' readers say about wallet `w` is the same in
both states. -/
structure SameReads (w : A) (s s' : State A S M) : Prop where
  passport : Passport.getPassport (s' .passport) w =
    Passport.getPassport (s .passport) w
  valid : Passport.isValid (s' .passport) w = Passport.isValid (s .passport) w
  credentials : CredentialStore.getCredentials (s' .credentialStore) w =
    CredentialStore.getCredentials (s .credentialStore) w
  count : CredentialStore.getCredentialCount (s' .credentialStore) w =
    CredentialStore.getCredentialCount (s .credentialStore) w
  listed : ∀ t sid,
    CredentialStore.credentialExists (s' .credentialStore) w t sid =
      CredentialStore.credentialExists (s .credentialStore) w t sid
  archives : CredentialStore.getArchiveRecords (s' .credentialStore) w =
    CredentialStore.getArchiveRecords (s .credentialStore) w
  score : TrustScore.getCurrentScore (s' .trustScore) w =
    TrustScore.getCurrentScore (s .trustScore) w
  history : TrustScore.getScoreHistory (s' .trustScore) w =
    TrustScore.getScoreHistory (s .trustScore) w
  badges : SoulboundNft.getBadgesForWallet (s' .soulboundNft) w =
    SoulboundNft.getBadgesForWallet (s .soulboundNft) w
  badge : ∀ id, SoulboundNft.getBadge (s' .soulboundNft) id =
    SoulboundNft.getBadge (s .soulboundNft) id
  flagged : ∀ m, SoulboundNft.hasBadge (s' .soulboundNft) w m =
    SoulboundNft.hasBadge (s .soulboundNft) w m

/-- What wallets cannot change without the administrators: all of three
contracts, and of the passports everything but the CIDs. -/
structure OwnerFrame (s s' : State A S M) : Prop where
  passports : ∀ v,
    (Passport.getPassport (s' .passport) v).map fixedFields =
      (Passport.getPassport (s .passport) v).map fixedFields
  credentials : s' .credentialStore = s .credentialStore
  scores : s' .trustScore = s .trustScore
  badges : s' .soulboundNft = s .soulboundNft

/-- A contract that nobody has installed is as it was deployed: before the
bootstrap every call fails, and a failing call writes nothing. -/
theorem untouched_before_installed {is : List (Request A S M)} {k : Contract}
    (hNone : ∀ a, ¬Installed is k a) : host.run is k = (contract k).init := by
  unfold host
  rw [Machine.family_run]
  apply (adminGuarded k).untouched
  rintro ⟨i, r⟩ he
  cases hInstalls : installs k (i, r) with
  | none => rfl
  | some a =>
      exact absurd ⟨i, r, (Machine.mem_family_history is k i r).mpr he,
        hInstalls⟩ (hNone a)

/-- The administrator whom `initialize` stored is the administrator after any
further calls, whoever signs them. -/
theorem admin_of_installed {is : List (Request A S M)} {k : Contract} {a : A}
    (h : Installed is k a) (js : List (Request A S M)) :
    adminOf k (host.run (is ++ js) k) = some a := by
  obtain ⟨i, r, hMem, hInstalls⟩ := h
  have hLater := (host.history_mono (List.prefix_append is js)).subset hMem
  unfold host at hLater ⊢
  rw [Machine.mem_family_history] at hLater
  rw [Machine.family_run]
  exact (adminGuarded k).admin_of_installed hLater hInstalls

theorem adminOf_of_installed {is : List (Request A S M)} {k : Contract} {a : A}
    (h : Installed is k a) : adminOf k (host.run is k) = some a := by
  have hAdmin := admin_of_installed h []
  rw [List.append_nil] at hAdmin
  exact hAdmin

/-- More requests take each contract through the calls addressed to it. -/
theorem run_append_apply (is js : List (Request A S M)) (k : Contract) :
    host.run (is ++ js) k = (contract k).runFrom (host.run is k)
      (js.filterMap (Machine.inputFor k)) := by
  rw [Machine.run_append]
  exact Machine.family_runFrom _ js k

/-- The step lemma behind both frames: without the administrator's signature an
installed contract writes nothing, unless the call is a wallet's update of its
own CID. -/
theorem step_frame {is : List (Request A S M)} {k : Contract} {a : A}
    (h : Installed is k a) {i : Invocation A (k.Call A S M)}
    (hAuth : a ∉ i.env.auths) (hUpdate : ¬OwnerUpdate k i) :
    (host.step (host.run is) ⟨k, i⟩).2 = host.run is := by
  have hSame := (adminGuarded k).frame (adminOf_of_installed h) hAuth hUpdate
  show Function.update (host.run is) k
    ((contract k).step (host.run is k) i).2 = host.run is
  rw [hSame, Function.update_eq_self]

/-- An owner update writes the CID of an existing passport, or nothing. -/
theorem step_ownerUpdate (s : State A S M) (env : Env A) (w : A)
    (cid : HostString) :
    (host.step s ⟨.passport, ⟨env, .updateMetadataCid w cid⟩⟩).2 = s ∨
      w ∈ env.auths ∧ ∃ r, Passport.getPassport (s .passport) w = some r ∧
        (host.step s ⟨.passport, ⟨env, .updateMetadataCid w cid⟩⟩).2 =
          Function.update s .passport
            (Passport.putPassport (s .passport) w { r with ipfsCid := cid }) := by
  rcases Passport.ownerUpdate_step (s .passport) env w cid with
    hSame | ⟨hOwner, r, hr, hPut⟩
  · left
    show Function.update s .passport (Passport.machine.step (s .passport)
      ⟨env, .updateMetadataCid w cid⟩).2 = s
    rw [hSame, Function.update_eq_self]
  · right
    refine ⟨hOwner, r, hr, ?_⟩
    show Function.update s .passport (Passport.machine.step (s .passport)
      ⟨env, .updateMetadataCid w cid⟩).2 = _
    rw [hPut]

section Suffix

variable {is js : List (Request A S M)} {admins : Contract → A}

/-- Without its administrator, a contract other than the passport keeps its
storage. -/
theorem run_frame (hInstalled : ∀ k, Installed is k (admins k))
    (hCalls : ∀ c ∈ js, admins c.1 ∉ c.2.env.auths) {k : Contract}
    (hOwner : ∀ i : Invocation A (k.Call A S M), ¬OwnerUpdate k i) :
    host.run (is ++ js) k = host.run is k := by
  have hAdmin := adminOf_of_installed (hInstalled k)
  rw [run_append_apply]
  refine (adminGuarded k).frame_runFrom hAdmin fun i hi => ?_
  exact ⟨hCalls ⟨k, i⟩ (Machine.mem_inputs.mp hi), hOwner i⟩

/-- A run that no administrator signs leaves at most CIDs behind: everything
else in the four storages is as before. -/
theorem run_ownerFrame (hInstalled : ∀ k, Installed is k (admins k))
    (hCalls : ∀ c ∈ js, admins c.1 ∉ c.2.env.auths) :
    OwnerFrame (host.run is) (host.run (is ++ js)) where
  passports := by
    intro v
    have hAdmin := adminOf_of_installed (hInstalled .passport)
    rw [run_append_apply]
    exact fixedFields_runFrom hAdmin v fun i hi =>
      hCalls ⟨.passport, i⟩ (Machine.mem_inputs.mp hi)
  credentials := run_frame hInstalled hCalls fun _ h => h
  scores := run_frame hInstalled hCalls fun _ h => h
  badges := run_frame hInstalled hCalls fun _ h => h

/-- What a run signed neither by an administrator nor by `w` leaves alone:
every reader, asked about `w`, returns what it returned before. -/
theorem run_sameReads {w : A} (hInstalled : ∀ k, Installed is k (admins k))
    (hCalls : ∀ c ∈ js, admins c.1 ∉ c.2.env.auths ∧ w ∉ c.2.env.auths) :
    SameReads w (host.run is) (host.run (is ++ js)) := by
  have hFrame := run_ownerFrame hInstalled fun c hc => (hCalls c hc).1
  have hPassport : Passport.getPassport (host.run (is ++ js) .passport) w =
      Passport.getPassport (host.run is .passport) w := by
    have hAdmin := adminOf_of_installed (hInstalled .passport)
    rw [run_append_apply]
    exact getPassport_runFrom hAdmin fun i hi =>
      hCalls ⟨.passport, i⟩ (Machine.mem_inputs.mp hi)
  exact
    { passport := hPassport
      valid := by
        unfold Passport.getPassport at hPassport
        simp only [Passport.isValid, hPassport]
      credentials := by rw [hFrame.credentials]
      count := by rw [hFrame.credentials]
      listed := fun t sid => by rw [hFrame.credentials]
      archives := by rw [hFrame.credentials]
      score := by rw [hFrame.scores]
      history := by rw [hFrame.scores]
      badges := by rw [hFrame.badges]
      badge := fun id => by rw [hFrame.badges]
      flagged := fun m => by rw [hFrame.badges] }

end Suffix

/-- **Authorisation frame.**  Before its first successful initialisation a
contract is as deployed; after it the administrator is fixed; a call the
administrator did not authorise changes nothing, an owner update apart, which
rewrites one CID; so what is readable about a wallet stays the same while
neither it nor an administrator authorises a call, and a wallet alone changes
nothing but its CID. -/
theorem authorisation_frame (is : List (Request A S M)) :
    (∀ k, (∀ a, ¬Installed is k a) → host.run is k = (contract k).init) ∧
      (∀ k a, Installed is k a → ∀ js,
        adminOf k (host.run (is ++ js) k) = some a) ∧
      (∀ k a, Installed is k a → ∀ i : Invocation A (k.Call A S M),
        a ∉ i.env.auths → ¬OwnerUpdate k i →
          (host.step (host.run is) ⟨k, i⟩).2 = host.run is) ∧
      (∀ env w cid,
        (host.step (host.run is)
            ⟨.passport, ⟨env, .updateMetadataCid w cid⟩⟩).2 = host.run is ∨
          w ∈ env.auths ∧
            ∃ r, Passport.getPassport (host.run is .passport) w = some r ∧
              (host.step (host.run is)
                  ⟨.passport, ⟨env, .updateMetadataCid w cid⟩⟩).2 =
                Function.update (host.run is) .passport
                  (Passport.putPassport (host.run is .passport) w
                    { r with ipfsCid := cid })) ∧
      (∀ admins : Contract → A, (∀ k, Installed is k (admins k)) → ∀ w js,
        (∀ c ∈ js, admins c.1 ∉ c.2.env.auths ∧ w ∉ c.2.env.auths) →
          SameReads w (host.run is) (host.run (is ++ js))) ∧
      (∀ admins : Contract → A, (∀ k, Installed is k (admins k)) → ∀ js,
        (∀ c ∈ js, admins c.1 ∉ c.2.env.auths) →
          OwnerFrame (host.run is) (host.run (is ++ js))) :=
  ⟨fun _ => untouched_before_installed, fun _ _ => admin_of_installed,
    fun _ _ h _ => step_frame h, step_ownerUpdate (host.run is),
    fun _ hInstalled _ _ => run_sameReads hInstalled,
    fun _ hInstalled _ => run_ownerFrame hInstalled⟩

/-- All four contracts under administrator 0, and a flagged passport of
wallet 7. -/
def deployment : List (Request Nat SignalType MilestoneType) :=
  let env : Env Nat := ⟨{0}, 100⟩
  [⟨.passport, ⟨env, .initializeAdmin 0⟩⟩,
    ⟨.credentialStore, ⟨env, .initializeAdmin 0⟩⟩,
    ⟨.trustScore, ⟨env, .initializeAdmin 0⟩⟩,
    ⟨.soulboundNft, ⟨env, .initializeAdmin 0⟩⟩,
    ⟨.passport, ⟨env, .createPassport 7 [1]⟩⟩,
    ⟨.passport, ⟨env, .setSybilFlag 7 true⟩⟩]

/-- Wallet 7 alone: it may rewrite its CID and nothing else. -/
def ownerAlone : List (Request Nat SignalType MilestoneType) :=
  let env : Env Nat := ⟨{7}, 200⟩
  [⟨.passport, ⟨env, .setSybilFlag 7 false⟩⟩,
    ⟨.passport, ⟨env, .updateMetadataCid 7 [2]⟩⟩,
    ⟨.credentialStore, ⟨env, .addCredential 7 .githubPr [3] 150 [0xaa]⟩⟩,
    ⟨.passport, ⟨env, .initializeAdmin 7⟩⟩]

theorem installed_deployment : ∀ k, Installed deployment k 0
  | .passport => ⟨⟨⟨{0}, 100⟩, .initializeAdmin 0⟩, .ok (),
      List.mem_of_getElem? (i := 0) rfl, rfl⟩
  | .credentialStore => ⟨⟨⟨{0}, 100⟩, .initializeAdmin 0⟩, .ok .unit,
      List.mem_of_getElem? (i := 1) rfl, rfl⟩
  | .trustScore => ⟨⟨⟨{0}, 100⟩, .initializeAdmin 0⟩, .ok (),
      List.mem_of_getElem? (i := 2) rfl, rfl⟩
  | .soulboundNft => ⟨⟨⟨{0}, 100⟩, .initializeAdmin 0⟩, .ok .unit,
      List.mem_of_getElem? (i := 3) rfl, rfl⟩

theorem authorisation_frame_ownerAlone :
    OwnerFrame (host.run deployment) (host.run (deployment ++ ownerAlone)) ∧
      Passport.getPassport
          (host.run (deployment ++ ownerAlone) .passport) 7 =
        some ⟨7, [2], 100, true⟩ :=
  ⟨(authorisation_frame deployment).2.2.2.2.2 (fun _ => 0)
    installed_deployment ownerAlone (by decide), by decide⟩

end ForgePass.Contracts.System
