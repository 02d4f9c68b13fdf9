import ForgePass.Contracts.Overflow
import ForgePass.Verified.Horizon

/-!
# Registers that never run out of numbers

The registers number claims and badges by their places, but the numbers that
they answer and show are those of the contracts, taken modulo 2 ^ 64.  Here the
places themselves are answered and shown, so nothing in these registers wraps:
ids are natural numbers, archives are counted without bound, and the guard of a
removal asks whether there is any archive at all.

The deployed contracts cannot be told from them exactly as long as every wallet
has less than 2 ^ 32 archives and less than 2 ^ 64 credentials were put on file
for it, and less than 2 ^ 64 badges were minted.
-/

namespace ForgePass.Contracts

open ForgePass.Verified
open ForgePass.Verified.Machine

variable {A S M : Type}

/-! ## Credentials numbered without bound -/

namespace CredentialStore

/-- A credential as it is shown where ids are natural numbers. -/
structure Filed (A S : Type) where
  id : Nat
  wallet : A
  signalType : S
  sourceId : HostString
  eventDate : UInt64
  dataHash : HostString

/-- A stored record, its id read as a natural number. -/
def filed (r : CredentialRecord A S) : Filed A S :=
  ⟨r.id.toNat, r.wallet, r.signalType, r.sourceId, r.eventDate, r.dataHash⟩

/-- What is shown of the claim that stands behind `n` others: nothing once it
is struck out. -/
def Claim.filed (w : A) (n : Nat) (c : Claim S) : Option (Filed A S) :=
  if c.struck then none
  else some ⟨n + 1, w, c.signalType, c.sourceId, c.eventDate, c.dataHash⟩

/-- The credentials of a file that are not struck out, under their places. -/
def File.filed (w : A) (f : File S) : List (Filed A S) :=
  (f.claims.mapIdx (Claim.filed w)).reduceOption

/-- A claim that is not struck out has this signal type and source id. -/
def File.Lists (f : File S) (t : S) (sid : HostString) : Prop :=
  ∃ c ∈ f.claims, c.struck = false ∧ c.signalType = t ∧ c.sourceId = sid

instance [DecidableEq S] (f : File S) (t : S) (sid : HostString) :
    Decidable (f.Lists t sid) :=
  inferInstanceAs (Decidable (∃ c ∈ f.claims, _))

/-- What a successful call returns where ids are natural numbers. -/
inductive Receipt where
  | unit
  | credentialId (id : Nat)

/-- A reply, its id read as a natural number. -/
def Reply.receipt : Reply → Receipt
  | .unit => .unit
  | .credentialId id => .credentialId id.toNat

/-- Every claim of every wallet was given a number of its own. -/
def Numbered (files : A → File S) : Prop :=
  ∀ w, (files w).claims.length < UInt64.size

theorem filed_entry (w : A) {n : Nat} (hn : n + 1 < UInt64.size)
    (c : Claim S) :
    (c.entry n).map (fun e => CredentialStore.filed (e.record w)) =
      c.filed w n := by
  unfold Claim.entry Claim.filed
  cases c.struck with
  | true => rfl
  | false =>
      show some (Filed.mk (UInt64.ofNat (n + 1)).toNat ..) = some _
      rw [UInt64.toNat_ofNat_of_lt' hn]
      rfl

/-- The records of a file show the places of its claims, while these have
room in 64 bits. -/
theorem filed_live (w : A) {f : File S} (hf : f.claims.length < UInt64.size) :
    (f.live.map (Entry.record · w)).map CredentialStore.filed = f.filed w := by
  have hEach : (f.claims.mapIdx Claim.entry).map
      (Option.map (CredentialStore.filed ∘ (Entry.record · w))) =
        f.claims.mapIdx (Claim.filed w) := by
    apply List.ext_getElem
    · simp
    · intro n hn _
      rw [List.length_map, List.length_mapIdx] at hn
      rw [List.getElem_map, List.getElem_mapIdx, List.getElem_mapIdx]
      exact filed_entry w (by omega) _
  unfold File.live File.filed
  rw [List.map_map, ← List.reduceOption_map, hEach]

theorem mem_live_key (f : File S) (t : S) (sid : HostString) :
    (t, sid) ∈ f.live.map Entry.key ↔ f.Lists t sid := by
  obtain ⟨claims, archives⟩ := f
  induction claims using List.reverseRecOn with
  | nil => simp [File.live, File.Lists]
  | append_singleton claims c ih =>
      have hLive : (File.mk (claims ++ [c]) archives).live =
          (File.mk claims archives).live ++ (c.entry claims.length).toList :=
        File.live_claim ⟨claims, archives⟩ c
      have hLists : (File.mk (claims ++ [c]) archives).Lists t sid ↔
          (File.mk claims archives).Lists t sid ∨
            (c.struck = false ∧ c.signalType = t ∧ c.sourceId = sid) := by
        simp [File.Lists, or_and_right, exists_or]
      have hEntry : (t, sid) ∈ (c.entry claims.length).toList.map Entry.key ↔
          (c.struck = false ∧ c.signalType = t ∧ c.sourceId = sid) := by
        unfold Claim.entry
        cases c.struck with
        | true => simp
        | false => simp [Entry.key, eq_comm]
      rw [hLive, List.map_append, List.mem_append, ih, hLists, hEntry]

variable [DecidableEq A] [DecidableEq S]

/-- The files under numbers without bound: a claim is answered its place. -/
def operateUnbounded (a : A) (files : A → File S)
    (i : Invocation A (Call A S)) :
    Except (Failure ContractError) Receipt × (A → File S) :=
  match i.call with
  | .initializeAdmin _ => (.error (.error .alreadyInitialized), files)
  | .addCredential w t sid d h =>
      if a ∈ i.env.auths then
        if (files w).Lists t sid then
          (.error (.error .credentialAlreadyExists), files)
        else (.ok (.credentialId ((files w).claims.length + 1)),
          Function.update files w ((files w).claim ⟨t, sid, d, h, false⟩))
      else (.error .trap, files)
  | .addArchiveRecord w root count time cid =>
      if a ∈ i.env.auths then
        (.ok .unit, Function.update files w
          ((files w).archive ⟨root, count, time, cid⟩))
      else (.error .trap, files)
  | .removeCredentials w sids =>
      if a ∈ i.env.auths then
        if (files w).archives = [] then
          (.error (.error .archiveRecordRequired), files)
        else (.ok .unit, Function.update files w ((files w).strike sids))
      else (.error .trap, files)

/-- The contract as files that are numbered without bound. -/
def registryUnbounded :
    Machine (Deployment A (A → File S)) (Invocation A (Call A S))
      (Except (Failure ContractError) Receipt) :=
  bootstrapped install (.ok .unit) (fun _ => .error (.error .notInitialized))
    (fun _ => .blank) operateUnbounded

theorem operateUnbounded_state (a : A) (files : A → File S)
    (i : Invocation A (Call A S)) :
    (operateUnbounded a files i).2 = (operate a files i).2 := by
  obtain ⟨env, call⟩ := i
  unfold operateUnbounded operate
  by_cases hAuth : a ∈ env.auths
  · cases call with
    | initializeAdmin b => rfl
    | addCredential w t sid d hash =>
        simp only [if_pos hAuth, mem_live_key]
        by_cases hHeld : (files w).Lists t sid
        · rw [if_pos hHeld, if_pos hHeld]
        · rw [if_neg hHeld, if_neg hHeld]
    | addArchiveRecord w root count time cid => simp only [if_pos hAuth]
    | removeCredentials w sids =>
        simp only [if_pos hAuth, List.length_eq_zero_iff]
        by_cases hNone : (files w).archives = []
        · rw [if_pos hNone, if_pos hNone]
        · rw [if_neg hNone, if_neg hNone]
  · cases call <;> simp only [if_neg hAuth]

omit [DecidableEq S] in
theorem numbered_update_iff {files : A → File S} (h : Numbered files) {w : A}
    {f : File S} :
    Numbered (Function.update files w f) ↔ f.claims.length < UInt64.size := by
  constructor
  · intro hAfter
    have hw := hAfter w
    rwa [Function.update_self] at hw
  · intro hf v
    by_cases hv : v = w
    · subst hv
      rwa [Function.update_self]
    · rw [Function.update_of_ne hv]
      exact h v

/-- A place and the number issued for it are the same as long as there is a
number for the place. -/
theorem receipt_operate_iff (a : A) {files : A → File S} (h : Numbered files)
    (i : Invocation A (Call A S)) :
    (operate a files i).1.map Reply.receipt = (operateUnbounded a files i).1 ↔
      Numbered (operate a files i).2 := by
  obtain ⟨env, call⟩ := i
  unfold operateUnbounded operate
  by_cases hAuth : a ∈ env.auths
  · cases call with
    | initializeAdmin b => exact iff_of_true rfl h
    | addCredential w t sid d hash =>
        simp only [if_pos hAuth, mem_live_key]
        by_cases hHeld : (files w).Lists t sid
        · rw [if_pos hHeld, if_pos hHeld]
          exact iff_of_true rfl h
        · rw [if_neg hHeld, if_neg hHeld]
          show Except.ok (Receipt.credentialId _) = Except.ok (.credentialId _) ↔
            Numbered (Function.update files w _)
          rw [numbered_update_iff h, Except.ok.injEq,
            Receipt.credentialId.injEq, UInt64.toNat_ofNat']
          show _ ↔ ((files w).claims ++ [_]).length < UInt64.size
          rw [List.length_append, List.length_singleton]
          exact Nat.mod_eq_iff_lt (by decide)
    | addArchiveRecord w root count time cid =>
        simp only [if_pos hAuth]
        exact iff_of_true rfl ((numbered_update_iff h).mpr (h w))
    | removeCredentials w sids =>
        simp only [if_pos hAuth, List.length_eq_zero_iff]
        by_cases hNone : (files w).archives = []
        · rw [if_pos hNone, if_pos hNone]
          exact iff_of_true rfl h
        · rw [if_neg hNone, if_neg hNone]
          refine iff_of_true rfl ((numbered_update_iff h).mpr ?_)
          rw [File.length_claims_strike]
          exact h w
  · cases call <;> simp only [if_neg hAuth] <;> exact iff_of_true rfl h

/-- The ids of the contract are the places of the claims as long as 64 bits
hold these. -/
theorem horizon : Horizon (registry (A := A) (S := S)) registryUnbounded
    (Except.map Reply.receipt)
    (fun d => Numbered (d.content fun _ => .blank)) := by
  apply Horizon.bootstrapped
  · rfl
  · exact fun i => rfl
  · exact fun w => (by decide : 0 < UInt64.size)
  · exact operateUnbounded_state
  · exact fun a files i h w =>
      Nat.lt_of_le_of_lt (operate_grows a files i w).1 (h w)
  · exact fun a files i h => receipt_operate_iff a h i

/-- What readers return is read off the files, ids as natural numbers. -/
structure ReadsUnbounded (s : Store A S) (d : Deployment A (A → File S)) :
    Prop where
  admin : adminOf s = d.admin?
  credentials : ∀ w, (getCredentials s w).map filed =
    (d.content (fun _ => .blank) w).filed w
  count : ∀ w, getCredentialCount s w =
    ((d.content (fun _ => .blank) w).filed w).length
  listed : ∀ w t sid, credentialExists s w t sid = true ↔
    (d.content (fun _ => .blank) w).Lists t sid
  archives : ∀ w, getArchiveRecords s w =
    (d.content (fun _ => .blank) w).archives

omit [DecidableEq A] in
theorem Reads.unbounded {s : Store A S} {d : Deployment A (A → File S)}
    (h : Reads id s d) (hNumbered : Numbered (d.content fun _ => .blank)) :
    ReadsUnbounded s d where
  admin := h.admin
  credentials w := by rw [h.credentials, filed_live w (hNumbered w)]
  count w := by
    rw [h.count, ← filed_live w (hNumbered w), List.length_map,
      List.length_map]
  listed w t sid := by rw [h.listed, mem_live_key]
  archives := h.archives

omit [DecidableEq A] in
/-- No more archives are ever read than the counter counts. -/
theorem ReadsUnbounded.fits {s : Store A S} {d : Deployment A (A → File S)}
    (h : ReadsUnbounded s d) : Fits (d.content fun _ => .blank) := by
  intro w
  rw [← h.archives, getArchiveRecords_eq]
  apply Nat.lt_of_le_of_lt (List.length_filterMap_le ..)
  rw [List.length_range]
  exact (archiveIndex s w).toNat_lt_size

end CredentialStore

/-! ## Badges numbered without bound -/

namespace SoulboundNft

/-- A badge as it is shown where ids are natural numbers. -/
structure Rolled (A M : Type) where
  badgeId : Nat
  wallet : A
  milestoneType : M
  ipfsCid : HostString
  mintedAt : UInt64

/-- A stored badge, its id read as a natural number. -/
def rolled (b : BadgeRecord A M) : Rolled A M :=
  ⟨b.badgeId.toNat, b.wallet, b.milestoneType, b.ipfsCid, b.mintedAt⟩

/-- What is shown of the mint that stands behind `n` others. -/
def Mint.rolled (n : Nat) (r : Mint A M) : Rolled A M :=
  ⟨n + 1, r.wallet, r.milestoneType, r.ipfsCid, r.mintedAt⟩

/-- The badges of a roll under their places. -/
def rolledOf (roll : List (Mint A M)) : List (Rolled A M) :=
  roll.mapIdx Mint.rolled

/-- What a successful call returns where ids are natural numbers. -/
inductive Receipt where
  | unit
  | badgeId (id : Nat)

/-- A reply, its id read as a natural number. -/
def Reply.receipt : Reply → Receipt
  | .unit => .unit
  | .badgeId id => .badgeId id.toNat

/-- The badges of a roll show the places of its mints, while these have room
in 64 bits. -/
theorem rolled_badgesOf {roll : List (Mint A M)} (h : Fits roll) :
    (badgesOf roll).map rolled = rolledOf roll := by
  unfold badgesOf rolledOf
  apply List.ext_getElem
  · simp
  · intro n hn _
    rw [List.length_map, List.length_mapIdx] at hn
    have hPlace : n + 1 < UInt64.size := by
      unfold Fits at h
      omega
    rw [List.getElem_map, List.getElem_mapIdx, List.getElem_mapIdx]
    show Rolled.mk (UInt64.ofNat (n + 1)).toNat .. = _
    rw [UInt64.toNat_ofNat_of_lt' hPlace]
    rfl

variable [DecidableEq A] [DecidableEq M]

/-- The roll under numbers without bound: a mint is answered its place. -/
def operateUnbounded (a : A) (roll : List (Mint A M))
    (i : Invocation A (Call A M)) :
    Except (Failure ContractError) Receipt × List (Mint A M) :=
  match i.call with
  | .initializeAdmin _ => (.error (.error .alreadyInitialized), roll)
  | .mint w m cid time =>
      if a ∈ i.env.auths then
        if ∃ r ∈ roll, r.key = (w, m) then
          (.error (.error .badgeAlreadyMinted), roll)
        else (.ok (.badgeId (roll.length + 1)), roll ++ [⟨w, m, cid, time⟩])
      else (.error .trap, roll)

/-- The contract as a roll that is numbered without bound. -/
def registryUnbounded :
    Machine (Deployment A (List (Mint A M))) (Invocation A (Call A M))
      (Except (Failure ContractError) Receipt) :=
  bootstrapped install (.ok .unit) (fun _ => .error (.error .notInitialized))
    [] operateUnbounded

theorem operateUnbounded_state (a : A) (roll : List (Mint A M))
    (i : Invocation A (Call A M)) :
    (operateUnbounded a roll i).2 = (operate a roll i).2 := by
  obtain ⟨env, call⟩ := i
  unfold operateUnbounded operate
  cases call with
  | initializeAdmin b => rfl
  | mint w m cid time =>
      by_cases hAuth : a ∈ env.auths
      · simp only [if_pos hAuth]
        by_cases hHeld : ∃ r ∈ roll, r.key = (w, m)
        · rw [if_pos hHeld, if_pos hHeld]
        · rw [if_neg hHeld, if_neg hHeld]
      · simp only [if_neg hAuth]

/-- Nothing leaves the roll. -/
theorem operate_grows (a : A) (roll : List (Mint A M))
    (i : Invocation A (Call A M)) :
    roll.length ≤ (operate a roll i).2.length := by
  obtain ⟨env, call⟩ := i
  unfold operate
  cases call with
  | initializeAdmin b => exact Nat.le_refl _
  | mint w m cid time =>
      by_cases hAuth : a ∈ env.auths
      · by_cases hHeld : ∃ r ∈ roll, r.key = (w, m)
        · simp only [if_pos hAuth, if_pos hHeld]
          exact Nat.le_refl _
        · simp only [if_pos hAuth, if_neg hHeld, List.length_append]
          omega
      · simp only [if_neg hAuth]
        exact Nat.le_refl _

theorem receipt_operate_iff (a : A) {roll : List (Mint A M)} (h : Fits roll)
    (i : Invocation A (Call A M)) :
    (operate a roll i).1.map Reply.receipt = (operateUnbounded a roll i).1 ↔
      Fits (operate a roll i).2 := by
  obtain ⟨env, call⟩ := i
  unfold operateUnbounded operate
  cases call with
  | initializeAdmin b => exact iff_of_true rfl h
  | mint w m cid time =>
      by_cases hAuth : a ∈ env.auths
      · simp only [if_pos hAuth]
        by_cases hHeld : ∃ r ∈ roll, r.key = (w, m)
        · rw [if_pos hHeld, if_pos hHeld]
          exact iff_of_true rfl h
        · rw [if_neg hHeld, if_neg hHeld]
          show Except.ok (Receipt.badgeId _) = Except.ok (.badgeId _) ↔
            (roll ++ [_]).length < UInt64.size
          rw [Except.ok.injEq, Receipt.badgeId.injEq, UInt64.toNat_ofNat',
            List.length_append, List.length_singleton]
          exact Nat.mod_eq_iff_lt (by decide)
      · simp only [if_neg hAuth]
        exact iff_of_true rfl h

/-- The ids of the contract are the places of the mints as long as 64 bits
hold these. -/
theorem horizon : Horizon (registry (A := A) (M := M)) registryUnbounded
    (Except.map Reply.receipt) (fun d => Fits (d.content [])) := by
  apply Horizon.bootstrapped
  · rfl
  · exact fun i => rfl
  · exact (by decide : 0 < UInt64.size)
  · exact operateUnbounded_state
  · exact fun a roll i h => Nat.lt_of_le_of_lt (operate_grows a roll i) h
  · exact fun a roll i h => receipt_operate_iff a h i

/-- What readers return is read off the roll, ids as natural numbers. -/
structure ReadsUnbounded (s : Store A M) (d : Deployment A (List (Mint A M))) :
    Prop where
  admin : adminOf s = d.admin?
  badge : ∀ id, (getBadge s id).map rolled =
    (rolledOf (d.content [])).find? fun b => b.badgeId = id.toNat
  badges : ∀ w, (getBadgesForWallet s w).map rolled =
    (rolledOf (d.content [])).filter fun b => b.wallet = w
  held : ∀ w m, hasBadge s w m = true ↔ ∃ r ∈ d.content [], r.key = (w, m)

omit [DecidableEq M] in
theorem ReadsWrapped.unbounded {s : Store A M}
    {d : Deployment A (List (Mint A M))} (h : ReadsWrapped s d)
    (hFits : Fits (d.content [])) : ReadsUnbounded s d := by
  have hReads := h.reads (Nat.le_of_lt hFits)
  refine ⟨hReads.admin, ?_, ?_, ?_⟩
  · intro id
    rw [hReads.badge, ← rolled_badgesOf hFits, List.find?_map]
    congr 2
    funext b
    simp [rolled, UInt64.toNat_inj]
  · intro w
    rw [hReads.badges, ← rolled_badgesOf hFits, List.filter_map]
    rfl
  · intro w m
    rw [hReads.held, List.mem_map]

end SoulboundNft

/-! ## The system -/

namespace System

/-- What one contract answers where ids are natural numbers. -/
@[reducible] def Contract.Receipt : Contract → Type
  | .passport => Passport.Answer
  | .credentialStore => Except (Failure ContractError) CredentialStore.Receipt
  | .trustScore => TrustScore.Answer
  | .soulboundNft => Except (Failure ContractError) SoulboundNft.Receipt

/-- An answer of one contract, its id read as a natural number. -/
def receiptIn : (k : Contract) → k.Answer → k.Receipt
  | .passport => id
  | .credentialStore => Except.map CredentialStore.Reply.receipt
  | .trustScore => id
  | .soulboundNft => Except.map SoulboundNft.Reply.receipt

/-- An answer of the system, its id read as a natural number. -/
def receipt (r : Response) : Σ k : Contract, k.Receipt :=
  ⟨r.1, receiptIn r.1 r.2⟩

/-- 64 bits hold the numbers that one contract gave out. -/
def NumbersIn : (k : Contract) → Deployment A (k.Content A S M) → Prop
  | .passport => fun _ => True
  | .credentialStore => fun d =>
      CredentialStore.Numbered (d.content fun _ => .blank)
  | .trustScore => fun _ => True
  | .soulboundNft => fun d => SoulboundNft.Fits (d.content [])

variable [DecidableEq A] [DecidableEq S] [DecidableEq M]

/-- The registers of each contract. Passports and scores have no numbers. -/
def registryUnboundedOf : (k : Contract) →
    Machine (Deployment A (k.Content A S M)) (Invocation A (k.Call A S M))
      k.Receipt
  | .passport => Passport.registry
  | .credentialStore => CredentialStore.registryUnbounded
  | .trustScore => TrustScore.registry
  | .soulboundNft => SoulboundNft.registryUnbounded

/-- The system as registers that are numbered without bound. -/
def registryUnbounded : Machine (Registers A S M) (Request A S M)
    (Σ k : Contract, k.Receipt) :=
  family registryUnboundedOf

theorem contract_horizon : ∀ k : Contract,
    Horizon (registryOf (A := A) (S := S) (M := M) k) (registryUnboundedOf k)
      (receiptIn k) (NumbersIn k)
  | .passport => .refl _
  | .credentialStore => CredentialStore.horizon
  | .trustScore => .refl _
  | .soulboundNft => SoulboundNft.horizon

/-- The registers answer their places as long as 64 bits hold these. -/
theorem registry_horizon :
    Horizon (registry (A := A) (S := S) (M := M)) registryUnbounded receipt
      (fun r => ∀ k, NumbersIn k (r k)) :=
  Horizon.family contract_horizon

omit [DecidableEq A] [DecidableEq S] [DecidableEq M] in
theorem numbersIn_iff (r : Registers A S M) : (∀ k, NumbersIn k (r k)) ↔
    CredentialStore.Numbered (filesOf r) ∧ SoulboundNft.Fits (rollOf r) := by
  constructor
  · exact fun h => ⟨h .credentialStore, h .soulboundNft⟩
  · rintro ⟨hFiles, hRoll⟩ k
    cases k with
    | passport => trivial
    | credentialStore => exact hFiles
    | trustScore => trivial
    | soulboundNft => exact hRoll

/-- Every reader of every contract returns what the registers say, ids as
natural numbers. -/
structure ReadableUnbounded (s : State A S M) (r : Registers A S M) :
    Prop where
  passport : Passport.Reads (s .passport) (r .passport)
  credentialStore : CredentialStore.ReadsUnbounded (s .credentialStore)
    (r .credentialStore)
  trustScore : TrustScore.Reads (s .trustScore) (r .trustScore)
  soulboundNft : SoulboundNft.ReadsUnbounded (s .soulboundNft)
    (r .soulboundNft)

omit [DecidableEq M] in
theorem ReadableWrapped.unbounded {s : State A S M} {r : Registers A S M}
    (h : ReadableWrapped s r) (hFits : CredentialStore.Fits (filesOf r))
    (hNumbered : CredentialStore.Numbered (filesOf r))
    (hRoll : SoulboundNft.Fits (rollOf r)) : ReadableUnbounded s r where
  passport := h.passport
  credentialStore := (h.credentialStore.of_fits hFits).unbounded hNumbered
  trustScore := h.trustScore
  soulboundNft := h.soulboundNft.unbounded hRoll

/-- **Where the refinement ends.**  The deployed contracts cannot be told from
registers in which nothing wraps exactly as long as every wallet has less than
2 ^ 32 archives and was given less than 2 ^ 64 credentials, struck out or not,
and less than 2 ^ 64 badges are minted. -/
theorem host_eq_unbounded_iff (rs : List (Request A S M)) :
    ((host.history rs).map (fun e => (e.1, receipt e.2)) =
          registryUnbounded.history rs ∧
        ReadableUnbounded (host.run rs) (registryUnbounded.run rs)) ↔
      (∀ w, (filesOf (registryUnbounded.run rs) w).archives.length <
            UInt32.size ∧
          (filesOf (registryUnbounded.run rs) w).claims.length < UInt64.size) ∧
        (rollOf (registryUnbounded.run rs)).length < UInt64.size := by
  have hNumbers := registry_horizon.history_iff rs
  rw [numbersIn_iff] at hNumbers
  rw [registry_horizon.run_eq rs]
  constructor
  · rintro ⟨hHistory, hReads⟩
    -- what is read of the archives fits, so the histories are the registers'
    have hFits : CredentialStore.Fits (filesOf (registry.run rs)) :=
      hReads.credentialStore.fits
    rw [(host_eq_registry hFits).1] at hHistory
    obtain ⟨hNumbered, hRoll⟩ := hNumbers.mp hHistory
    exact ⟨fun w => ⟨hFits w, hNumbered w⟩, hRoll⟩
  · rintro ⟨hFiles, hRoll⟩
    have hFits : CredentialStore.Fits (filesOf (registry.run rs)) :=
      fun w => (hFiles w).1
    have hNumbered : CredentialStore.Numbered (filesOf (registry.run rs)) :=
      fun w => (hFiles w).2
    obtain ⟨hHistory, hReads⟩ := host_eq_registry hFits
    rw [hHistory]
    exact ⟨hNumbers.mpr ⟨hNumbered, hRoll⟩,
      hReads.unbounded hFits hNumbered hRoll⟩

end System

end ForgePass.Contracts
