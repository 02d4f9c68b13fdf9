import ForgePass.Contracts.Shared

/-!
# The soulbound badge contract

Storage keys, entry points and public readers, as the contract computes them.
One mint writes four places in two tiers: the global counter, the badge by its
id, the index of its wallet and the duplicate flag.  `+` on the `u64` counter
wraps, as it does in a release build without overflow checks.
-/

namespace ForgePass.Contracts.SoulboundNft

open ForgePass.Verified
open ForgePass.Verified.Guest

/-- Storage keys.

Badges lie in the persistent tier under their ids, and so does the list of ids
of each wallet.  The counter, shared by all wallets, and the duplicate flags are
in the instance tier, beside the administrator. -/
inductive DataKey (A M : Type) where
  | admin
  | badge (badgeId : UInt64)
  | walletBadges (wallet : A)
  | badgeCounter
  | hasBadge (wallet : A) (milestoneType : M)
  deriving DecidableEq

/-- The type of the value stored under each key. -/
@[reducible] def DataKey.Value (A M : Type) : DataKey A M → Type
  | .admin => A
  | .badge _ => BadgeRecord A M
  | .walletBadges _ => List UInt64
  | .badgeCounter => UInt64
  | .hasBadge _ _ => Bool

/-- Storage of the contract. -/
abbrev Store (A M : Type) := Ledger (DataKey A M) (DataKey.Value A M)

/-- Guest computations of the contract. -/
abbrev Exec (A M α : Type) :=
  Guest A (DataKey A M) (DataKey.Value A M) ContractError α

variable {A M : Type} [DecidableEq A] [DecidableEq M]

/-! ## Entry points -/

/-- Load the administrator and require its authorisation: an empty slot is
`NotInitialized`, a missing signature a host trap. -/
def requireAdmin : Exec A M Unit :=
  requireAdminAt .admin id .notInitialized

/-- The bootstrap entry point `initialize`, whose name is reserved here. -/
def initializeAdmin (admin : A) : Exec A M Unit :=
  initializeAt .admin id .alreadyInitialized admin

/-- `mint`: one badge for each wallet and milestone, ever. The badge is stored
under the next number of the global counter, the number is noted for the
wallet, and the pair is marked as minted. -/
def mint (wallet : A) (milestoneType : M) (ipfsCid : HostString)
    (mintedAt : UInt64) : Exec A M UInt64 := do
  requireAdmin
  -- Every check precedes the counter, so a rejected mint consumes no id.
  let alreadyMinted : Bool :=
    (← instanceGet (.hasBadge wallet milestoneType)).getD false
  if alreadyMinted then
    fail .badgeAlreadyMinted
  let counter : UInt64 := (← instanceGet .badgeCounter).getD 0
  let badgeId := counter + 1
  instanceSet .badgeCounter badgeId
  let record : BadgeRecord A M :=
    { badgeId, wallet, milestoneType, ipfsCid, mintedAt }
  persistentSet (.badge badgeId) record
  let walletBadges : List UInt64 :=
    (← persistentGet (.walletBadges wallet)).getD []
  persistentSet (.walletBadges wallet) (walletBadges ++ [badgeId])
  instanceSet (.hasBadge wallet milestoneType) true
  return badgeId

/-! ## Public readers -/

/-- `get_badge`: the badge under a number, if one was minted. -/
def getBadge (s : Store A M) (badgeId : UInt64) : Option (BadgeRecord A M) :=
  s.persistentTier.get (.badge badgeId)

/-- `get_badges_for_wallet`: the badges under the numbers noted for the wallet,
in the order of minting; a number without a badge is skipped. -/
def getBadgesForWallet (s : Store A M) (wallet : A) :
    List (BadgeRecord A M) := Id.run do
  let badgeIds : List UInt64 :=
    (s.persistentTier.get (.walletBadges wallet)).getD []
  let mut records := []
  for badgeId in badgeIds do
    if let some record := s.persistentTier.get (.badge badgeId) then
      records := records ++ [record]
  return records

/-- `has_badge`: the mark that a mint leaves for its wallet and milestone. -/
def hasBadge (s : Store A M) (wallet : A) (milestoneType : M) : Bool :=
  (s.instanceTier.get (.hasBadge wallet milestoneType)).getD false

/-! ## Calls -/

/-- The state-changing calls.  There is none that transfers, burns or changes a
badge; the readers are not among them. -/
inductive Call (A M : Type) where
  | initializeAdmin (admin : A)
  | mint (wallet : A) (milestoneType : M) (ipfsCid : HostString)
      (mintedAt : UInt64)
  deriving DecidableEq

/-- What a successful call returns: the id of a minted badge, or nothing. -/
inductive Reply where
  | unit
  | badgeId (id : UInt64)
  deriving DecidableEq

/-- The guest code behind each call: the host runs it on the storage that the
previous call left, with the signatures and the time of the invocation.  A call
without a return value replies `unit`. -/
def exec : Call A M → Exec A M Reply
  | .initializeAdmin admin => (fun _ => .unit) <$> initializeAdmin admin
  | .mint wallet milestoneType ipfsCid mintedAt =>
      .badgeId <$> mint wallet milestoneType ipfsCid mintedAt

/-- The answer to a call. -/
abbrev Answer := Except (Failure ContractError) Reply

/-- The contract as a machine over its calls.  It starts with empty storage;
what a failing call has written by then is not taken back, so that atomicity is
something to prove. -/
def machine : Machine (Store A M) (Invocation A (Call A M)) Answer :=
  guestMachine exec

end ForgePass.Contracts.SoulboundNft
