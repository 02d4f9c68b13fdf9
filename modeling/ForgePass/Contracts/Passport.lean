import ForgePass.Contracts.Shared

/-!
# The passport contract

Storage keys, entry points and public readers, as the contract computes them.
`update_metadata_cid` is the one entry point that the administrator does not
guard: the passport's owner authorises it.
-/

namespace ForgePass.Contracts.Passport

open ForgePass.Verified
open ForgePass.Verified.Guest

/-- Storage keys.

The administrator lies in the instance tier and the record of each wallet in the
persistent tier.  The contract has no counter and no list of wallets. -/
inductive DataKey (A : Type) where
  | admin
  | passport (wallet : A)
  deriving DecidableEq

/-- The type of the value stored under each key. -/
@[reducible] def DataKey.Value (A : Type) : DataKey A → Type
  | .admin => A
  | .passport _ => PassportRecord A

/-- Storage of the contract. -/
abbrev Store (A : Type) := Ledger (DataKey A) (DataKey.Value A)

/-- Guest computations of the contract. -/
abbrev Exec (A α : Type) :=
  Guest A (DataKey A) (DataKey.Value A) ContractError α

variable {A : Type} [DecidableEq A]

/-! ## Entry points -/

/-- Load the administrator and require its authorisation: an empty slot is
`NotInitialized`, a missing signature a host trap. -/
def requireAdmin : Exec A Unit :=
  requireAdminAt .admin id .notInitialized

/-- The bootstrap entry point `initialize`, whose name is reserved here. -/
def initializeAdmin (admin : A) : Exec A Unit :=
  initializeAt .admin id .alreadyInitialized admin

/-- `create_passport`: one for each wallet, with the time of the ledger as its
date and no flag. The CID is stored as it comes, whatever its length. -/
def createPassport (wallet : A) (ipfsCid : HostString) : Exec A Unit := do
  requireAdmin
  if ← persistentHas (.passport wallet) then
    fail .passportAlreadyExists
  let record : PassportRecord A :=
    { wallet, ipfsCid, createdAt := ← ledgerTimestamp, sybilFlagged := false }
  persistentSet (.passport wallet) record

/-- `update_metadata_cid`: the owner, and only the owner, replaces the CID of
its passport. Here the length is not looked at either. -/
def updateMetadataCid (wallet : A) (newCid : HostString) : Exec A Unit := do
  requireAuth wallet
  let some record ← persistentGet (DataKey.passport wallet)
    | fail .passportNotFound
  persistentSet (.passport wallet) { record with ipfsCid := newCid }

/-- `set_sybil_flag`: the administrator sets or clears the flag of an existing
passport. -/
def setSybilFlag (wallet : A) (flagged : Bool) : Exec A Unit := do
  requireAdmin
  let some record ← persistentGet (DataKey.passport wallet)
    | fail .passportNotFound
  -- A redundant call succeeds without a write.
  if record.sybilFlagged = flagged then
    return
  persistentSet (.passport wallet) { record with sybilFlagged := flagged }

/-! ## Public readers -/

/-- `get_passport`: the stored record, if the wallet has one. -/
def getPassport (s : Store A) (wallet : A) : Option (PassportRecord A) :=
  s.persistentTier.get (.passport wallet)

/-- `is_valid`: the wallet has a passport, and it is not flagged. -/
def isValid (s : Store A) (wallet : A) : Bool :=
  let passport : Option (PassportRecord A) :=
    s.persistentTier.get (.passport wallet)
  match passport with
  | some record => !record.sybilFlagged
  | none => false

/-! ## Calls -/

/-- The state-changing calls.  The readers are not among them: they need no
signature and write nothing. -/
inductive Call (A : Type) where
  | initializeAdmin (admin : A)
  | createPassport (wallet : A) (ipfsCid : HostString)
  | updateMetadataCid (wallet : A) (newCid : HostString)
  | setSybilFlag (wallet : A) (flagged : Bool)
  deriving DecidableEq

/-- The guest code behind each call: the host runs it on the storage that the
previous call left, with the signatures and the time of the invocation. -/
def exec : Call A → Exec A Unit
  | .initializeAdmin admin => initializeAdmin admin
  | .createPassport wallet ipfsCid => createPassport wallet ipfsCid
  | .updateMetadataCid wallet newCid => updateMetadataCid wallet newCid
  | .setSybilFlag wallet flagged => setSybilFlag wallet flagged

/-- The answer to a call: no call of this contract returns a value. -/
abbrev Answer := Except (Failure ContractError) Unit

/-- The contract as a machine over its calls.  It starts with empty storage;
what a failing call has written by then is not taken back, so that atomicity is
something to prove. -/
def machine : Machine (Store A) (Invocation A (Call A)) Answer :=
  guestMachine exec

end ForgePass.Contracts.Passport
