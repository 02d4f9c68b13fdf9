import ForgePass.Contracts.Shared

/-!
# The credential store contract

Storage keys, entry points and public readers, as the contract computes them.
Entry points run in the guest monad; readers take the storage by value, so
they cannot write.  `+` on the `u64` and `u32` counters wraps, as it does in a
release build without overflow checks.
-/

namespace ForgePass.Contracts.CredentialStore

open ForgePass.Verified
open ForgePass.Verified.Guest

/-- Storage keys.

The live credentials of a wallet are one vector in the persistent tier, and its
archive records lie there under slots numbered from 0.  The two counters of the
wallet are in the instance tier: the last id issued, and the next free slot. -/
inductive DataKey (A : Type) where
  | admin
  | credentials (wallet : A)
  | credentialCounter (wallet : A)
  | archiveRecord (wallet : A) (archiveIndex : UInt32)
  | archiveIndex (wallet : A)
  deriving DecidableEq

/-- The type of the value stored under each key. -/
@[reducible] def DataKey.Value (A S : Type) : DataKey A → Type
  | .admin => A
  | .credentials _ => List (CredentialRecord A S)
  | .credentialCounter _ => UInt64
  | .archiveRecord _ _ => ArchiveRecord
  | .archiveIndex _ => UInt32

/-- Storage of the contract. -/
abbrev Store (A S : Type) := Ledger (DataKey A) (DataKey.Value A S)

/-- Guest computations of the contract. -/
abbrev Exec (A S α : Type) :=
  Guest A (DataKey A) (DataKey.Value A S) ContractError α

variable {A S : Type} [DecidableEq A] [DecidableEq S]

/-! ## Entry points -/

/-- Load the administrator and require its authorisation: an empty slot is
`NotInitialized`, a missing signature a host trap. -/
def requireAdmin : Exec A S Unit :=
  requireAdminAt .admin id .notInitialized

/-- The bootstrap entry point `initialize`, whose name is reserved here. -/
def initializeAdmin (admin : A) : Exec A S Unit :=
  initializeAt .admin id .alreadyInitialized admin

/-- `add_credential`: reject a pair of signal type and source id that is in the
live set, otherwise append the record under the next number of the wallet's
counter and return that number. -/
def addCredential (wallet : A) (signalType : S) (sourceId : HostString)
    (eventDate : UInt64) (dataHash : HostString) : Exec A S UInt64 := do
  requireAdmin
  -- Deduplication over the live set only; archived entries are not consulted.
  let credentials : List (CredentialRecord A S) :=
    (← persistentGet (.credentials wallet)).getD []
  for cred in credentials do
    if cred.signalType = signalType ∧ cred.sourceId = sourceId then
      fail .credentialAlreadyExists
  let id : UInt64 := (← instanceGet (.credentialCounter wallet)).getD 0 + 1
  let record : CredentialRecord A S :=
    { id, wallet, signalType, sourceId, eventDate, dataHash }
  persistentSet (.credentials wallet) (credentials ++ [record])
  instanceSet (.credentialCounter wallet) id
  return id

/-- `add_archive_record`: write the record into the slot that the wallet's
archive index points at, and move the index on. Nothing of the record is
checked. -/
def addArchiveRecord (wallet : A) (merkleRoot : BytesN 32)
    (credentialCount : UInt32) (archivedAt : UInt64) (ipfsCid : HostString) :
    Exec A S Unit := do
  requireAdmin
  let archiveIndex : UInt32 := (← instanceGet (.archiveIndex wallet)).getD 0
  let record : ArchiveRecord :=
    { merkleRoot, credentialCount, archivedAt, ipfsCid }
  persistentSet (.archiveRecord wallet archiveIndex) record
  instanceSet (.archiveIndex wallet) (archiveIndex + 1)

/-- The rebuild loop of `remove_credentials`: a new vector of the records whose
source id is not listed, in their old order.  The signal type is not compared. -/
def rebuildWithout (sourceIds : List HostString)
    (credentials : List (CredentialRecord A S)) :
    List (CredentialRecord A S) := Id.run do
  let mut updated := []
  for cred in credentials do
    let mut shouldRemove := false
    for sid in sourceIds do
      if cred.sourceId = sid then
        shouldRemove := true
        break
    if !shouldRemove then
      updated := updated ++ [cred]
  return updated

/-- `remove_credentials`: drop every live record whose source id is listed, of
whatever signal type. The guard only asks that the archive index is not 0; the
counts in the archive records are not read. -/
def removeCredentials (wallet : A) (sourceIds : List HostString) :
    Exec A S Unit := do
  requireAdmin
  let archiveCount : UInt32 := (← instanceGet (.archiveIndex wallet)).getD 0
  if archiveCount = 0 then
    fail .archiveRecordRequired
  let credentials : List (CredentialRecord A S) :=
    (← persistentGet (.credentials wallet)).getD []
  persistentSet (.credentials wallet) (rebuildWithout sourceIds credentials)

/-! ## Public readers -/

/-- `get_credentials`: the live set of the wallet, in the order of addition,
empty if nothing was ever added. -/
def getCredentials (s : Store A S) (wallet : A) : List (CredentialRecord A S) :=
  (s.persistentTier.get (.credentials wallet)).getD []

/-- `get_credential_count`: the length of the live set.  Host vectors are at most
`u32` long, so their length is a plain number. -/
def getCredentialCount (s : Store A S) (wallet : A) : Nat :=
  let credentials : List (CredentialRecord A S) :=
    (s.persistentTier.get (.credentials wallet)).getD []
  credentials.length

/-- `credential_exists`: whether the pair of signal type and source id is in
the live set, by the scan that the addition makes. -/
def credentialExists (s : Store A S) (wallet : A) (signalType : S)
    (sourceId : HostString) : Bool := Id.run do
  let credentials : List (CredentialRecord A S) :=
    (s.persistentTier.get (.credentials wallet)).getD []
  for cred in credentials do
    if cred.signalType = signalType ∧ cred.sourceId = sourceId then
      return true
  return false

/-- `get_archive_records`: the slots below the archive index, in order; a slot
that is empty is skipped. -/
def getArchiveRecords (s : Store A S) (wallet : A) : List ArchiveRecord :=
  Id.run do
    let total : UInt32 := (s.instanceTier.get (.archiveIndex wallet)).getD 0
    let mut records := []
    for i in List.range total.toNat do
      if let some record :=
          s.persistentTier.get (.archiveRecord wallet (.ofNat i)) then
        records := records ++ [record]
    return records

/-! ## Calls -/

/-- The state-changing calls.  The readers are not among them: they need no
signature and write nothing. -/
inductive Call (A S : Type) where
  | initializeAdmin (admin : A)
  | addCredential (wallet : A) (signalType : S) (sourceId : HostString)
      (eventDate : UInt64) (dataHash : HostString)
  | addArchiveRecord (wallet : A) (merkleRoot : BytesN 32)
      (credentialCount : UInt32) (archivedAt : UInt64) (ipfsCid : HostString)
  | removeCredentials (wallet : A) (sourceIds : List HostString)
  deriving DecidableEq

/-- What a successful call returns: the id of an added credential, or nothing. -/
inductive Reply where
  | unit
  | credentialId (id : UInt64)
  deriving DecidableEq

/-- The guest code behind each call: the host runs it on the storage that the
previous call left, with the signatures and the time of the invocation.  A call
without a return value replies `unit`. -/
def exec : Call A S → Exec A S Reply
  | .initializeAdmin admin => (fun _ => .unit) <$> initializeAdmin admin
  | .addCredential wallet signalType sourceId eventDate dataHash =>
      .credentialId <$>
        addCredential wallet signalType sourceId eventDate dataHash
  | .addArchiveRecord wallet merkleRoot credentialCount archivedAt ipfsCid =>
      (fun _ => .unit) <$>
        addArchiveRecord wallet merkleRoot credentialCount archivedAt ipfsCid
  | .removeCredentials wallet sourceIds =>
      (fun _ => .unit) <$> removeCredentials wallet sourceIds

/-- The answer to a call. -/
abbrev Answer := Except (Failure ContractError) Reply

/-- The contract as a machine over its calls.  It starts with empty storage;
what a failing call has written by then is not taken back, so that atomicity is
something to prove. -/
def machine : Machine (Store A S) (Invocation A (Call A S)) Answer :=
  guestMachine exec

end ForgePass.Contracts.CredentialStore
