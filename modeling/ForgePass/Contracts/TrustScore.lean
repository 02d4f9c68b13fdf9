import ForgePass.Contracts.Shared

/-!
# The trust score contract

Storage keys, entry points and public readers, as the contract computes them.
The history is a host vector in the persistent tier; the latest snapshot and
the history length are mirrored in the instance tier.
-/

namespace ForgePass.Contracts.TrustScore

open ForgePass.Verified
open ForgePass.Verified.Guest

/-- Storage keys.

The history of a wallet lies in the persistent tier; the latest snapshot and the
length are mirrors in the instance tier, beside the administrator. -/
inductive DataKey (A : Type) where
  | admin
  | currentScore (wallet : A)
  | scoreHistory (wallet : A)
  | snapshotCount (wallet : A)
  deriving DecidableEq

/-- The type of the value stored under each key. -/
@[reducible] def DataKey.Value (A : Type) : DataKey A → Type
  | .admin => A
  | .currentScore _ => ScoreSnapshot
  | .scoreHistory _ => List ScoreSnapshot
  | .snapshotCount _ => UInt32

/-- Storage of the contract. -/
abbrev Store (A : Type) := Ledger (DataKey A) (DataKey.Value A)

/-- Guest computations of the contract. -/
abbrev Exec (A α : Type) :=
  Guest A (DataKey A) (DataKey.Value A) ContractError α

variable {A : Type} [DecidableEq A]

/-! ## Entry points -/

/-- Load the administrator and require its authorisation: an empty slot is
`NotInitialized`, a missing signature a host trap. -/
def requireAdmin : Exec A Unit :=
  requireAdminAt .admin id .notInitialized

/-- The bootstrap entry point `initialize`, whose name is reserved here. -/
def initializeAdmin (admin : A) : Exec A Unit :=
  initializeAt .admin id .alreadyInitialized admin

/-- `anchor_score`: append a snapshot to the history of the wallet, without its
oldest one if there are 50 already, and copy it and the length into the
instance tier. The time is the caller's and compared with nothing. -/
def anchorScore (wallet : A) (score : UInt32)
    (algorithmVersion signalHash : HostString) (computedAt : UInt64) :
    Exec A Unit := do
  requireAdmin
  if score > 100 then
    fail .invalidScore
  let newSnapshot : ScoreSnapshot :=
    { score, algorithmVersion, signalHash, computedAt }
  let mut history : List ScoreSnapshot :=
    (← persistentGet (.scoreHistory wallet)).getD []
  if history.length > 50 then
    fail .historyCapExceeded
  if history.length = 50 then
    history := history.tail
  history := history ++ [newSnapshot]
  persistentSet (.scoreHistory wallet) history
  instanceSet (.currentScore wallet) newSnapshot
  instanceSet (.snapshotCount wallet) (.ofNat history.length)

/-! ## Public readers -/

/-- `get_current_score`: the copy in the instance tier; the history is not
read. -/
def getCurrentScore (s : Store A) (wallet : A) : Option ScoreSnapshot :=
  s.instanceTier.get (.currentScore wallet)

/-- `get_score_history`: the stored history, empty if no score was anchored. -/
def getScoreHistory (s : Store A) (wallet : A) : List ScoreSnapshot :=
  (s.persistentTier.get (.scoreHistory wallet)).getD []

/-! ## Calls -/

/-- The state-changing calls.  The readers are not among them: they need no
signature and write nothing. -/
inductive Call (A : Type) where
  | initializeAdmin (admin : A)
  | anchorScore (wallet : A) (score : UInt32)
      (algorithmVersion signalHash : HostString) (computedAt : UInt64)
  deriving DecidableEq

/-- The guest code behind each call: the host runs it on the storage that the
previous call left, with the signatures and the time of the invocation. -/
def exec : Call A → Exec A Unit
  | .initializeAdmin admin => initializeAdmin admin
  | .anchorScore wallet score algorithmVersion signalHash computedAt =>
      anchorScore wallet score algorithmVersion signalHash computedAt

/-- The answer to a call: no call of this contract returns a value. -/
abbrev Answer := Except (Failure ContractError) Unit

/-- The contract as a machine over its calls.  It starts with empty storage;
what a failing call has written by then is not taken back, so that atomicity is
something to prove. -/
def machine : Machine (Store A) (Invocation A (Call A)) Answer :=
  guestMachine exec

end ForgePass.Contracts.TrustScore
