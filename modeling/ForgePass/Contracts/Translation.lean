import ForgePass.Contracts.Overflow
import ForgePass.Verified.Translation

/-!
# Names and contents

The contracts compare addresses, signal types, milestones and source ids, and
they compare a score with 100.  Whatever else a call brings, and what the clock
shows, goes on record unread.  So a run may be translated: names under
injective renamings, contents in any way that leaves a score valid or invalid.
The translated run gets the same answers, and its readers return the
translation of what the readers of the run return.

It is enough to see this of the registers, which the deployed contracts refine
whatever their counters do.
-/

namespace ForgePass.Contracts

open ForgePass.Verified
open ForgePass.Verified.Machine

/-- A rewriting of everything that a request brings: addresses, variants,
texts, dates and the time of the ledger. The contracts' own numbers are not
part of it. -/
structure Rewriting (A A' S S' M M' : Type) where
  address : A → A'
  signalType : S → S'
  milestoneType : M → M'
  sourceId : HostString → HostString
  clock : UInt64 → UInt64
  passportCid : HostString → HostString
  eventDate : UInt64 → UInt64
  dataHash : HostString → HostString
  archive : ArchiveRecord → ArchiveRecord
  snapshot : ScoreSnapshot → ScoreSnapshot
  badgeCid : HostString → HostString
  mintedAt : UInt64 → UInt64

/-- Names stay apart, and scores valid or invalid. Of what is rewritten the
contracts compare nothing else; they store it and return it. -/
structure Rewriting.Faithful {A A' S S' M M' : Type}
    (re : Rewriting A A' S S' M M') : Prop where
  address : Function.Injective re.address
  signalType : Function.Injective re.signalType
  milestoneType : Function.Injective re.milestoneType
  sourceId : Function.Injective re.sourceId
  snapshot : ∀ r, (re.snapshot r).score ≤ 100 ↔ r.score ≤ 100

/-- A faithful rewriting. -/
structure Translation (A A' S S' M M' : Type) extends
    Rewriting A A' S S' M M' where
  faithful : toRewriting.Faithful

variable {A A' S S' M M' : Type}

/-! ## Calls and records -/

namespace Rewriting

/-- The environment, rewritten: who signed, and when. -/
def env [DecidableEq A'] (re : Rewriting A A' S S' M M') (e : Env A) : Env A' :=
  ⟨e.auths.image re.address, re.clock e.timestamp⟩

/-- A call to the passport contract, rewritten. -/
def passportCall (re : Rewriting A A' S S' M M') :
    Passport.Call A → Passport.Call A'
  | .initializeAdmin a => .initializeAdmin (re.address a)
  | .createPassport w cid =>
      .createPassport (re.address w) (re.passportCid cid)
  | .updateMetadataCid w cid =>
      .updateMetadataCid (re.address w) (re.passportCid cid)
  | .setSybilFlag w flag => .setSybilFlag (re.address w) flag

/-- A call to the credential store, rewritten; an archive record is rewritten
as a whole. -/
def credentialCall (re : Rewriting A A' S S' M M') :
    CredentialStore.Call A S → CredentialStore.Call A' S'
  | .initializeAdmin a => .initializeAdmin (re.address a)
  | .addCredential w t sid d hash =>
      .addCredential (re.address w) (re.signalType t) (re.sourceId sid)
        (re.eventDate d) (re.dataHash hash)
  | .addArchiveRecord w root count time cid =>
      let r := re.archive ⟨root, count, time, cid⟩
      .addArchiveRecord (re.address w) r.merkleRoot r.credentialCount
        r.archivedAt r.ipfsCid
  | .removeCredentials w sids =>
      .removeCredentials (re.address w) (sids.map re.sourceId)

/-- A call to the score contract, rewritten; a snapshot is rewritten as a
whole. -/
def scoreCall (re : Rewriting A A' S S' M M') :
    TrustScore.Call A → TrustScore.Call A'
  | .initializeAdmin a => .initializeAdmin (re.address a)
  | .anchorScore w score version hash time =>
      let r := re.snapshot ⟨score, version, hash, time⟩
      .anchorScore (re.address w) r.score r.algorithmVersion r.signalHash
        r.computedAt

/-- A call to the badge contract, rewritten. -/
def badgeCall (re : Rewriting A A' S S' M M') :
    SoulboundNft.Call A M → SoulboundNft.Call A' M'
  | .initializeAdmin a => .initializeAdmin (re.address a)
  | .mint w m cid time =>
      .mint (re.address w) (re.milestoneType m) (re.badgeCid cid)
        (re.mintedAt time)

/-- A stored passport, rewritten; its date is a time of the ledger. -/
def passportRecord (re : Rewriting A A' S S' M M') (r : PassportRecord A) :
    PassportRecord A' :=
  ⟨re.address r.wallet, re.passportCid r.ipfsCid, re.clock r.createdAt,
    r.sybilFlagged⟩

/-- A stored credential, rewritten; its number stays. -/
def credentialRecord (re : Rewriting A A' S S' M M')
    (r : CredentialRecord A S) : CredentialRecord A' S' :=
  ⟨r.id, re.address r.wallet, re.signalType r.signalType,
    re.sourceId r.sourceId, re.eventDate r.eventDate, re.dataHash r.dataHash⟩

/-- A stored badge, rewritten; its number stays. -/
def badgeRecord (re : Rewriting A A' S S' M M') (r : BadgeRecord A M) :
    BadgeRecord A' M' :=
  ⟨r.badgeId, re.address r.wallet, re.milestoneType r.milestoneType,
    re.badgeCid r.ipfsCid, re.mintedAt r.mintedAt⟩

/-- A whole invocation, rewritten. -/
def invoke {C C' : Type} [DecidableEq A'] (re : Rewriting A A' S S' M M')
    (call : C → C') (i : Invocation A C) : Invocation A' C' :=
  ⟨re.env i.env, call i.call⟩

end Rewriting

theorem Translation.mem_auths [DecidableEq A'] (tr : Translation A A' S S' M M')
    (e : Env A) (a : A) : tr.address a ∈ (tr.env e).auths ↔ a ∈ e.auths :=
  tr.faithful.address.mem_finset_image

variable [DecidableEq A] [DecidableEq A'] (tr : Translation A A' S S' M M')

/-! ## The book of profiles -/

namespace Passport

/-- A profile, translated. -/
def Profile.translate (p : Profile) : Profile :=
  ⟨tr.passportCid p.ipfsCid, tr.clock p.createdAt, p.sybilFlagged⟩

/-- The book of the renamed wallets has their profiles translated. -/
abbrev BookTranslated : Book A → Book A' → Prop :=
  Carried tr.address (Option.map (Profile.translate tr)) none

variable {tr} {book : Book A} {book' : Book A'}

omit [DecidableEq A] [DecidableEq A'] in
theorem bookTranslated_blank : BookTranslated tr Book.blank Book.blank :=
  .const rfl

theorem amend_translated (h : BookTranslated tr book book') (w : A)
    {f f' : Profile → Profile}
    (hf : ∀ p, f' (p.translate tr) = (f p).translate tr) :
    Related Eq (BookTranslated tr) (amend book w f)
      (amend book' (tr.address w) f') := by
  unfold amend
  rw [h.image]
  cases book w with
  | none => exact ⟨rfl, h⟩
  | some p =>
      exact ⟨rfl, h.update tr.faithful.address w (congrArg some (hf p))⟩

theorem operate_translated (h : BookTranslated tr book book') (a : A)
    (i : Invocation A (Call A)) :
    Related Eq (BookTranslated tr) (operate a book i)
      (operate (tr.address a) book' (tr.invoke tr.passportCall i)) := by
  obtain ⟨env, call⟩ := i
  unfold operate Rewriting.invoke
  cases call with
  | initializeAdmin b => exact ⟨rfl, h⟩
  | createPassport w cid =>
      simp only [Rewriting.passportCall, tr.mem_auths, h.image,
        Option.isSome_map]
      refine .ite (fun _ => ?_) fun _ => ⟨rfl, h⟩
      refine .ite (fun _ => ⟨rfl, h⟩) fun _ => ⟨rfl, ?_⟩
      exact h.update tr.faithful.address w rfl
  | updateMetadataCid w cid =>
      simp only [Rewriting.passportCall, tr.mem_auths]
      refine .ite (fun _ => ?_) fun _ => ⟨rfl, h⟩
      exact amend_translated h w fun p => rfl
  | setSybilFlag w flag =>
      simp only [Rewriting.passportCall, tr.mem_auths]
      refine .ite (fun _ => ?_) fun _ => ⟨rfl, h⟩
      exact amend_translated h w fun p => rfl

theorem registry_translated {d : Deployment A (Book A)}
    {d' : Deployment A' (Book A')}
    (h : Translates tr.address (BookTranslated tr) d d')
    (i : Invocation A (Call A)) :
    Related Eq (Translates tr.address (BookTranslated tr)) (registry.step d i)
      (registry.step d' (tr.invoke tr.passportCall i)) := by
  refine h.bootstrapped ?_ ?_ bookTranslated_blank
    (fun a x x' i hx => operate_translated hx a i) i
  · rintro ⟨env, call⟩
    cases call <;> rfl
  · rintro ⟨env, call⟩
    cases call with
    | updateMetadataCid w cid =>
        simp only [early, Rewriting.invoke, Rewriting.passportCall,
          tr.mem_auths]
    | _ => rfl

/-- The readers return the translations of what they returned. -/
structure ReadsTranslated (tr : Translation A A' S S' M M') (s : Store A)
    (s' : Store A') : Prop where
  admin : adminOf s' = (adminOf s).map tr.address
  passport : ∀ w, getPassport s' (tr.address w) =
    (getPassport s w).map tr.passportRecord
  valid : ∀ w, isValid s' (tr.address w) = isValid s w

omit [DecidableEq A] [DecidableEq A'] in
theorem reads_translated {s : Store A} {s' : Store A'}
    {d : Deployment A (Book A)} {d' : Deployment A' (Book A')}
    (h : Translates tr.address (BookTranslated tr) d d') (hs : Reads s d)
    (hs' : Reads s' d') : ReadsTranslated tr s s' := by
  have hBook : BookTranslated tr (d.content Book.blank)
      (d'.content Book.blank) := h.content bookTranslated_blank
  have hPassport (w : A) : getPassport s' (tr.address w) =
      (getPassport s w).map tr.passportRecord := by
    rw [hs'.passport, hs.passport, hBook.image, Option.map_map, Option.map_map]
    rfl
  refine ⟨?_, hPassport, fun w => ?_⟩
  · rw [hs'.admin, hs.admin, h.admin?]
  · rw [Bool.eq_iff_iff, hs'.valid, hs.valid, hBook.image]
    simp [Option.map_eq_some_iff, Profile.translate]

end Passport

/-! ## The files of claims and archives -/

namespace CredentialStore

/-- A credential, translated; its number stays. -/
def Entry.translate (e : Entry S) : Entry S' :=
  ⟨e.id, tr.signalType e.signalType, tr.sourceId e.sourceId,
    tr.eventDate e.eventDate, tr.dataHash e.dataHash⟩

/-- A claim on file, translated; it stays struck out if it was. -/
def Claim.translate (c : Claim S) : Claim S' :=
  ⟨tr.signalType c.signalType, tr.sourceId c.sourceId,
    tr.eventDate c.eventDate, tr.dataHash c.dataHash, c.struck⟩

/-- A file, translated entry by entry. -/
def File.translate (f : File S) : File S' :=
  ⟨f.claims.map (Claim.translate tr), f.archives.map tr.archive⟩

/-- The files of the renamed wallets are translated. -/
abbrev FilesTranslated : (A → File S) → (A' → File S') → Prop :=
  Carried tr.address (File.translate tr) .blank

section Files

omit [DecidableEq A] [DecidableEq A']

variable {tr}

theorem filesTranslated_blank :
    FilesTranslated tr (fun _ => .blank) fun _ => .blank := .const rfl

theorem entry_translate (n : Nat) (c : Claim S) :
    (c.translate tr).entry n = (c.entry n).map (Entry.translate tr) := by
  unfold Claim.translate Claim.entry
  cases c.struck <;> rfl

theorem live_translate (f : File S) :
    (f.translate tr).live = f.live.map (Entry.translate tr) := by
  have hEntries : (f.translate tr).claims.mapIdx Claim.entry =
      (f.claims.mapIdx Claim.entry).map (Option.map (Entry.translate tr)) := by
    apply List.ext_getElem?
    intro n
    simp only [File.translate, List.getElem?_mapIdx, List.getElem?_map]
    cases f.claims[n]? with
    | none => rfl
    | some c => exact congrArg some (entry_translate n c)
  unfold File.live
  rw [hEntries, List.reduceOption_map]

theorem mem_keys_translate (f : File S) (t : S) (sid : HostString) :
    (tr.signalType t, tr.sourceId sid) ∈
        (f.translate tr).live.map Entry.key ↔
      (t, sid) ∈ f.live.map Entry.key := by
  have hKeys : (f.translate tr).live.map Entry.key =
      (f.live.map Entry.key).map (Prod.map tr.signalType tr.sourceId) := by
    rw [live_translate, List.map_map, List.map_map]
    rfl
  rw [hKeys]
  exact List.mem_map_of_injective
    (tr.faithful.signalType.prodMap tr.faithful.sourceId)
    (a := (t, sid))

theorem strike_translate (f : File S) (sids : List HostString) :
    (f.translate tr).strike (sids.map tr.sourceId) =
      (f.strike sids).translate tr := by
  unfold File.strike File.translate
  simp only [List.map_map]
  congr 1
  apply List.map_congr_left
  intro c _
  simp [Claim.strike, Claim.translate,
    List.mem_map_of_injective tr.faithful.sourceId]

end Files

variable {tr} [DecidableEq S] [DecidableEq S'] {files : A → File S}
  {files' : A' → File S'}

theorem operateWrapped_translated (h : FilesTranslated tr files files') (a : A)
    (i : Invocation A (Call A S)) :
    Related Eq (FilesTranslated tr) (operateWrapped a files i)
      (operateWrapped (tr.address a) files'
        (tr.invoke tr.credentialCall i)) := by
  have hClaims (w : A) : (files' (tr.address w)).claims.length =
      (files w).claims.length := by
    rw [h.image]
    exact List.length_map _
  have hArchives (w : A) : (files' (tr.address w)).archives.length =
      (files w).archives.length := by
    rw [h.image]
    exact List.length_map _
  obtain ⟨env, call⟩ := i
  unfold Rewriting.invoke
  cases call with
  | initializeAdmin b => exact ⟨rfl, h⟩
  | addCredential w t sid d hash =>
      simp only [Rewriting.credentialCall, operateWrapped, operate,
        tr.mem_auths, hClaims]
      refine .ite (fun _ => ?_) fun _ => ⟨rfl, h⟩
      simp only [h.image, mem_keys_translate]
      refine .ite (fun _ => ⟨rfl, h⟩) fun _ => ⟨rfl, ?_⟩
      apply h.update tr.faithful.address
      unfold File.claim File.translate
      rw [List.map_append]
      rfl
  | addArchiveRecord w root count time cid =>
      simp only [Rewriting.credentialCall, operateWrapped, operate,
        tr.mem_auths]
      refine .ite (fun _ => ⟨rfl, ?_⟩) fun _ => ⟨rfl, h⟩
      apply h.update tr.faithful.address
      unfold File.archive
      rw [h.image]
      unfold File.translate
      rw [List.map_append]
      rfl
  | removeCredentials w sids =>
      simp only [Rewriting.credentialCall, operateWrapped, tr.mem_auths,
        hArchives]
      refine .ite (fun _ => ?_) fun _ => ⟨rfl, h⟩
      refine .ite (fun _ => ⟨rfl, h⟩) fun _ => ⟨rfl, ?_⟩
      apply h.update tr.faithful.address
      rw [h.image, strike_translate]

theorem registryWrapped_translated {d : Deployment A (A → File S)}
    {d' : Deployment A' (A' → File S')}
    (h : Translates tr.address (FilesTranslated tr) d d')
    (i : Invocation A (Call A S)) :
    Related Eq (Translates tr.address (FilesTranslated tr))
      (registryWrapped.step d i)
      (registryWrapped.step d' (tr.invoke tr.credentialCall i)) := by
  refine h.bootstrapped ?_ ?_ filesTranslated_blank
    (fun a x x' i hx => operateWrapped_translated hx a i) i
  · rintro ⟨env, call⟩
    cases call <;> rfl
  · exact fun _ => rfl

/-- The readers return the translations of what they returned. -/
structure ReadsTranslated (tr : Translation A A' S S' M M') (s : Store A S)
    (s' : Store A' S') : Prop where
  admin : adminOf s' = (adminOf s).map tr.address
  credentials : ∀ w, getCredentials s' (tr.address w) =
    (getCredentials s w).map tr.credentialRecord
  count : ∀ w, getCredentialCount s' (tr.address w) = getCredentialCount s w
  listed : ∀ w t sid,
    credentialExists s' (tr.address w) (tr.signalType t) (tr.sourceId sid) =
      credentialExists s w t sid
  archives : ∀ w, getArchiveRecords s' (tr.address w) =
    (getArchiveRecords s w).map tr.archive

omit [DecidableEq A] [DecidableEq A'] in
theorem reads_translated {s : Store A S} {s' : Store A' S'}
    {d : Deployment A (A → File S)} {d' : Deployment A' (A' → File S')}
    (h : Translates tr.address (FilesTranslated tr) d d')
    (hs : Reads (lastLap UInt32.size) s d)
    (hs' : Reads (lastLap UInt32.size) s' d') : ReadsTranslated tr s s' := by
  have hFiles : FilesTranslated tr (d.content fun _ => .blank)
      (d'.content fun _ => .blank) := h.content filesTranslated_blank
  refine ⟨?_, fun w => ?_, fun w => ?_, fun w t sid => ?_, fun w => ?_⟩
  · rw [hs'.admin, hs.admin, h.admin?]
  · rw [hs'.credentials, hs.credentials, hFiles.image, live_translate,
      List.map_map, List.map_map]
    rfl
  · rw [hs'.count, hs.count, hFiles.image, live_translate, List.length_map]
  · rw [Bool.eq_iff_iff, hs'.listed, hs.listed, hFiles.image,
      mem_keys_translate]
  · rw [hs'.archives, hs.archives, hFiles.image]
    exact lastLap_map tr.archive

end CredentialStore

/-! ## The log of scores -/

namespace TrustScore

/-- The scores of the renamed wallets are translated. -/
abbrev LogTranslated : Log A → Log A' → Prop :=
  Carried tr.address (List.map tr.snapshot) []

variable {tr} {log : Log A} {log' : Log A'}

omit [DecidableEq A] [DecidableEq A'] in
theorem logTranslated_blank :
    LogTranslated tr (fun _ => []) fun _ => [] := .const rfl

theorem operate_translated (h : LogTranslated tr log log') (a : A)
    (i : Invocation A (Call A)) :
    Related Eq (LogTranslated tr) (operate a log i)
      (operate (tr.address a) log' (tr.invoke tr.scoreCall i)) := by
  obtain ⟨env, call⟩ := i
  unfold operate Rewriting.invoke
  cases call with
  | initializeAdmin b => exact ⟨rfl, h⟩
  | anchorScore w score version hash time =>
      simp only [Rewriting.scoreCall, tr.mem_auths, tr.faithful.snapshot]
      refine .ite (fun _ => ?_) fun _ => ⟨rfl, h⟩
      refine .ite (fun _ => ⟨rfl, ?_⟩) fun _ => ⟨rfl, h⟩
      apply h.update tr.faithful.address
      rw [h.image, List.map_append]
      rfl

theorem registry_translated {d : Deployment A (Log A)}
    {d' : Deployment A' (Log A')}
    (h : Translates tr.address (LogTranslated tr) d d')
    (i : Invocation A (Call A)) :
    Related Eq (Translates tr.address (LogTranslated tr)) (registry.step d i)
      (registry.step d' (tr.invoke tr.scoreCall i)) := by
  refine h.bootstrapped ?_ ?_ logTranslated_blank
    (fun a x x' i hx => operate_translated hx a i) i
  · rintro ⟨env, call⟩
    cases call <;> rfl
  · exact fun _ => rfl

/-- The readers return the translations of what they returned. -/
structure ReadsTranslated (tr : Translation A A' S S' M M') (s : Store A)
    (s' : Store A') : Prop where
  admin : adminOf s' = (adminOf s).map tr.address
  history : ∀ w, getScoreHistory s' (tr.address w) =
    (getScoreHistory s w).map tr.snapshot
  score : ∀ w, getCurrentScore s' (tr.address w) =
    (getCurrentScore s w).map tr.snapshot

omit [DecidableEq A] [DecidableEq A'] in
theorem reads_translated {s : Store A} {s' : Store A'}
    {d : Deployment A (Log A)} {d' : Deployment A' (Log A')}
    (h : Translates tr.address (LogTranslated tr) d d') (hs : Reads s d)
    (hs' : Reads s' d') : ReadsTranslated tr s s' := by
  have hLog : LogTranslated tr (d.content fun _ => [])
      (d'.content fun _ => []) := h.content logTranslated_blank
  refine ⟨?_, fun w => ?_, fun w => ?_⟩
  · rw [hs'.admin, hs.admin, h.admin?]
  · rw [hs'.history, hs.history, hLog.image, lastN_map]
  · rw [hs'.score, hs.score, hLog.image, List.getLast?_map]

end TrustScore

/-! ## The roll of badges -/

namespace SoulboundNft

/-- A mint on the roll, translated. -/
def Mint.translate (r : Mint A M) : Mint A' M' :=
  ⟨tr.address r.wallet, tr.milestoneType r.milestoneType,
    tr.badgeCid r.ipfsCid, tr.mintedAt r.mintedAt⟩

/-- The mints on the roll are translated. -/
abbrev RollTranslated (roll : List (Mint A M)) (roll' : List (Mint A' M')) :
    Prop :=
  roll' = roll.map (Mint.translate tr)

section Roll

omit [DecidableEq A] [DecidableEq A']

variable {tr}

theorem rollTranslated_nil : RollTranslated tr [] [] := rfl

theorem mem_keys_translate (roll : List (Mint A M)) (w : A) (m : M) :
    (tr.address w, tr.milestoneType m) ∈
        (roll.map (Mint.translate tr)).map Mint.key ↔
      (w, m) ∈ roll.map Mint.key := by
  have hKeys : (roll.map (Mint.translate tr)).map Mint.key =
      (roll.map Mint.key).map (Prod.map tr.address tr.milestoneType) := by
    rw [List.map_map, List.map_map]
    rfl
  rw [hKeys]
  exact List.mem_map_of_injective
    (tr.faithful.address.prodMap tr.faithful.milestoneType) (a := (w, m))

theorem badgesOf_translate (roll : List (Mint A M)) :
    badgesOf (roll.map (Mint.translate tr)) =
      (badgesOf roll).map tr.badgeRecord := by
  apply List.ext_getElem?
  intro n
  simp only [badgesOf, List.getElem?_mapIdx, List.getElem?_map]
  cases roll[n]? with
  | none => rfl
  | some r => rfl

theorem latest_translate (badges : List (BadgeRecord A M)) (id : UInt64) :
    latest (badges.map tr.badgeRecord) id =
      (latest badges id).map tr.badgeRecord := by
  unfold latest
  rw [← List.map_reverse, List.find?_map]
  rfl

end Roll

variable {tr} [DecidableEq M] [DecidableEq M'] {roll : List (Mint A M)}
  {roll' : List (Mint A' M')}

theorem operate_translated (h : RollTranslated tr roll roll') (a : A)
    (i : Invocation A (Call A M)) :
    Related Eq (RollTranslated tr) (operate a roll i)
      (operate (tr.address a) roll' (tr.invoke tr.badgeCall i)) := by
  have hHeld (w : A) (m : M) : (∃ r ∈ roll',
      r.key = (tr.address w, tr.milestoneType m)) ↔
        ∃ r ∈ roll, r.key = (w, m) := by
    rw [← List.mem_map, ← List.mem_map, h, mem_keys_translate]
  obtain ⟨env, call⟩ := i
  unfold operate Rewriting.invoke
  cases call with
  | initializeAdmin b => exact ⟨rfl, h⟩
  | mint w m cid time =>
      simp only [Rewriting.badgeCall, tr.mem_auths, hHeld]
      refine .ite (fun _ => ?_) fun _ => ⟨rfl, h⟩
      refine .ite (fun _ => ⟨rfl, h⟩) fun _ => ⟨?_, ?_⟩
      · rw [h, List.length_map]
      · rw [h, RollTranslated, List.map_append]
        rfl

theorem registry_translated {d : Deployment A (List (Mint A M))}
    {d' : Deployment A' (List (Mint A' M'))}
    (h : Translates tr.address (RollTranslated tr) d d')
    (i : Invocation A (Call A M)) :
    Related Eq (Translates tr.address (RollTranslated tr)) (registry.step d i)
      (registry.step d' (tr.invoke tr.badgeCall i)) := by
  refine h.bootstrapped ?_ ?_ rollTranslated_nil
    (fun a x x' i hx => operate_translated hx a i) i
  · rintro ⟨env, call⟩
    cases call <;> rfl
  · exact fun _ => rfl

/-- The readers return the translations of what they returned. -/
structure ReadsTranslated (tr : Translation A A' S S' M M') (s : Store A M)
    (s' : Store A' M') : Prop where
  admin : adminOf s' = (adminOf s).map tr.address
  badge : ∀ id, getBadge s' id = (getBadge s id).map tr.badgeRecord
  badges : ∀ w, getBadgesForWallet s' (tr.address w) =
    (getBadgesForWallet s w).map tr.badgeRecord
  held : ∀ w m, hasBadge s' (tr.address w) (tr.milestoneType m) =
    hasBadge s w m

omit [DecidableEq M] [DecidableEq M'] in
theorem reads_translated {s : Store A M} {s' : Store A' M'}
    {d : Deployment A (List (Mint A M))}
    {d' : Deployment A' (List (Mint A' M'))}
    (h : Translates tr.address (RollTranslated tr) d d')
    (hs : ReadsWrapped s d) (hs' : ReadsWrapped s' d') :
    ReadsTranslated tr s s' := by
  have hRoll : d'.content [] = (d.content []).map (Mint.translate tr) :=
    h.content rollTranslated_nil
  refine ⟨?_, fun id => ?_, fun w => ?_, fun w m => ?_⟩
  · rw [hs'.admin, hs.admin, h.admin?]
  · rw [hs'.badge, hs.badge, hRoll, badgesOf_translate, latest_translate]
  · have hMine (b : BadgeRecord A M) :
        decide ((tr.badgeRecord b).wallet = tr.address w) =
          decide (b.wallet = w) :=
      decide_eq_decide.mpr tr.faithful.address.eq_iff
    rw [hs'.badges, hs.badges, hRoll, badgesOf_translate, List.filter_map,
      List.filterMap_map, List.map_filterMap]
    have hFilter : (badgesOf (d.content [])).filter
        ((fun b => decide (b.wallet = tr.address w)) ∘ tr.badgeRecord) =
          (badgesOf (d.content [])).filter fun b => b.wallet = w :=
      List.filter_congr fun b _ => hMine b
    rw [hFilter]
    exact List.filterMap_congr fun b _ => latest_translate _ b.badgeId
  · rw [Bool.eq_iff_iff, hs'.held, hs.held, hRoll, mem_keys_translate]

end SoulboundNft

/-! ## The system -/

namespace System

/-- A call of one contract, rewritten. -/
def rewriteIn (re : Rewriting A A' S S' M M') : (k : Contract) →
    Invocation A (k.Call A S M) → Invocation A' (k.Call A' S' M')
  | .passport => re.invoke re.passportCall
  | .credentialStore => re.invoke re.credentialCall
  | .trustScore => re.invoke re.scoreCall
  | .soulboundNft => re.invoke re.badgeCall

/-- A request, rewritten. -/
def rewrite (re : Rewriting A A' S S' M M') (r : Request A S M) :
    Request A' S' M' := ⟨r.1, rewriteIn re r.1 r.2⟩

/-- The content of one contract, translated. -/
def ContentTranslated : (k : Contract) → k.Content A S M → k.Content A' S' M' →
    Prop
  | .passport => Passport.BookTranslated tr
  | .credentialStore => CredentialStore.FilesTranslated tr
  | .trustScore => TrustScore.LogTranslated tr
  | .soulboundNft => SoulboundNft.RollTranslated tr

/-- Every reader of every contract returns the translation of what it
returned. -/
structure ReadsTranslated (tr : Translation A A' S S' M M') [DecidableEq S]
    [DecidableEq S'] (s : State A S M) (s' : State A' S' M') : Prop where
  passport : Passport.ReadsTranslated tr (s .passport) (s' .passport)
  credentialStore : CredentialStore.ReadsTranslated tr (s .credentialStore)
    (s' .credentialStore)
  trustScore : TrustScore.ReadsTranslated tr (s .trustScore) (s' .trustScore)
  soulboundNft : SoulboundNft.ReadsTranslated tr (s .soulboundNft)
    (s' .soulboundNft)

variable {tr} [DecidableEq S] [DecidableEq S'] [DecidableEq M] [DecidableEq M']

theorem registryOf_translated : ∀ (k : Contract)
    (d : Deployment A (k.Content A S M)) (d' : Deployment A' (k.Content A' S' M'))
    (i : Invocation A (k.Call A S M)),
    Translates tr.address (ContentTranslated tr k) d d' →
      Related Eq (Translates tr.address (ContentTranslated tr k))
        ((registryWrappedOf k).step d i)
        ((registryWrappedOf k).step d' (rewriteIn tr.toRewriting k i))
  | .passport => fun _ _ i h => Passport.registry_translated h i
  | .credentialStore => fun _ _ i h =>
      CredentialStore.registryWrapped_translated h i
  | .trustScore => fun _ _ i h => TrustScore.registry_translated h i
  | .soulboundNft => fun _ _ i h => SoulboundNft.registry_translated h i

theorem registryWrapped_simulation :
    Simulation (registryWrapped (A := A) (S := S) (M := M)) registryWrapped
      (some ∘ rewrite tr.toRewriting) (fun _ => True)
      (fun r r' => ∀ k, Translates tr.address (ContentTranslated tr k) (r k)
        (r' k)) Eq := by
  refine .ofMap (fun k => ?_) fun r r' i h => ?_
  · cases k <;> exact .fresh
  · exact .family h (registryOf_translated i.1 _ _ i.2 (h i.1))

/-- The translated run gets the answers of the run. -/
theorem history_translated (tr : Translation A A' S S' M M')
    (rs : List (Request A S M)) :
    host.history (rs.map (rewrite tr.toRewriting)) =
      (host.history rs).map fun e => (rewrite tr.toRewriting e.1, e.2) := by
  rw [(run_keepsWrapped rs).2, (run_keepsWrapped _).2]
  exact registryWrapped_simulation.history_map rs

theorem reads_translated (tr : Translation A A' S S' M M')
    (rs : List (Request A S M)) :
    ReadsTranslated tr (host.run rs)
      (host.run (rs.map (rewrite tr.toRewriting))) := by
  have hReads := readable_of_keepsWrapped (run_keepsWrapped rs).1
  have hReads' := readable_of_keepsWrapped
    (run_keepsWrapped (rs.map (rewrite tr.toRewriting))).1
  have h : ∀ k, Translates tr.address (ContentTranslated tr k)
      (registryWrapped.run rs k)
      (registryWrapped.run (rs.map (rewrite tr.toRewriting)) k) :=
    registryWrapped_simulation.run_map rs
  exact
    { passport := Passport.reads_translated (h .passport) hReads.passport
        hReads'.passport
      credentialStore := CredentialStore.reads_translated (h .credentialStore)
        hReads.credentialStore hReads'.credentialStore
      trustScore := TrustScore.reads_translated (h .trustScore)
        hReads.trustScore hReads'.trustScore
      soulboundNft := SoulboundNft.reads_translated (h .soulboundNft)
        hReads.soulboundNft hReads'.soulboundNft }

/-- **Names and contents.** Translating a run changes no answer, and readers
return the translation of what they returned: what the contracts look at is
what a translation keeps. -/
theorem host_translated (tr : Translation A A' S S' M M')
    (rs : List (Request A S M)) :
    host.history (rs.map (rewrite tr.toRewriting)) =
        (host.history rs).map (fun e => (rewrite tr.toRewriting e.1, e.2)) ∧
      ReadsTranslated tr (host.run rs)
        (host.run (rs.map (rewrite tr.toRewriting))) :=
  ⟨history_translated tr rs, reads_translated tr rs⟩

/-- Wallets are numbered from 10 on, and source ids get a first byte more.  The
credential of wallet 7 is found under its new name with wallet 17. -/
theorem host_translated_renumbered :
    let re : Rewriting Nat Nat SignalType SignalType MilestoneType
        MilestoneType :=
      { address := (· + 10)
        signalType := id
        milestoneType := id
        sourceId := (0 :: ·)
        clock := (· + 5)
        passportCid := List.reverse
        eventDate := fun _ => 0
        dataHash := id
        archive := fun r => { r with ipfsCid := [] }
        snapshot := fun r => { r with computedAt := 0 }
        badgeCid := id
        mintedAt := (· + 1) }
    let rs : List (Request Nat SignalType MilestoneType) :=
      [⟨.credentialStore, ⟨⟨{0}, 100⟩, .initializeAdmin 0⟩⟩,
        ⟨.credentialStore, ⟨⟨{0}, 100⟩, .addCredential 7 .githubPr [3] 50 [1]⟩⟩,
        ⟨.credentialStore, ⟨⟨{0}, 100⟩, .addCredential 7 .githubPr [3] 60 [2]⟩⟩]
    (host.history (rs.map (rewrite re))).map Prod.snd =
        (host.history rs).map Prod.snd ∧
      CredentialStore.getCredentials
          (host.run (rs.map (rewrite re)) .credentialStore) 17 =
        [⟨1, 17, .githubPr, [0, 3], 0, [1]⟩] := by
  intro re rs
  have hFaithful : re.Faithful :=
    { address := fun a b hab => Nat.add_right_cancel hab
      signalType := fun t t' ht => ht
      milestoneType := fun m m' hm => hm
      sourceId := fun sid sid' hSid => (List.cons.inj hSid).2
      snapshot := fun r => Iff.rfl }
  obtain ⟨hHistory, hReads⟩ := host_translated ⟨re, hFaithful⟩ rs
  constructor
  · rw [hHistory, List.map_map]
    rfl
  · exact (hReads.credentialStore.credentials 7).trans rfl

end System

end ForgePass.Contracts
