import ForgePass.Verified.Contract

/-!
# Shared contract types

The record structures, enumerations and the error enumeration that all four
contracts import.  The address type `A` is a parameter throughout: the
contracts only compare addresses.  Records that carry a signal or milestone
type take that enumeration as a parameter too, because the contracts store and
compare its values and never branch on them; `SignalType` and `MilestoneType`
are the v1 instances.
-/

namespace ForgePass.Contracts

/-- A host string: a byte string, compared bytewise. The contracts neither
decode nor check what is in it. -/
abbrev HostString := List UInt8

/-- A host byte array of fixed length. -/
abbrev BytesN (n : Nat) := Vector UInt8 n

/-- One passport per contributor, keyed by wallet. Only the CID and the flag
are ever rewritten. -/
structure PassportRecord (A : Type) where
  wallet : A
  ipfsCid : HostString
  /-- Ledger clock at creation. -/
  createdAt : UInt64
  sybilFlagged : Bool
  deriving DecidableEq

/-- On-chain proof of one contribution signal. Nothing of it is ever rewritten;
it is removed once its batch is archived. -/
structure CredentialRecord (A S : Type) where
  /-- Issued by the contract from a per-wallet counter. -/
  id : UInt64
  wallet : A
  signalType : S
  sourceId : HostString
  eventDate : UInt64
  dataHash : HostString
  deriving DecidableEq

/-- One anchored trust score, from 0 to 100, with the hash of the signals that
it was computed from. -/
structure ScoreSnapshot where
  score : UInt32
  algorithmVersion : HostString
  signalHash : HostString
  /-- Supplied by the caller, in seconds. -/
  computedAt : UInt64
  deriving DecidableEq

/-- One soulbound badge: written once by a mint and never changed, moved or
removed. -/
structure BadgeRecord (A M : Type) where
  /-- Issued by the contract from one global counter. -/
  badgeId : UInt64
  wallet : A
  milestoneType : M
  ipfsCid : HostString
  mintedAt : UInt64
  deriving DecidableEq

/-- Merkle root proof of one archival cycle: the root over the archived batch,
the number of credentials in it, and where the batch lies. -/
structure ArchiveRecord where
  merkleRoot : BytesN 32
  credentialCount : UInt32
  archivedAt : UInt64
  ipfsCid : HostString
  deriving DecidableEq

/-- Contribution signal sources: four active, three reserved. The contracts
accept all seven alike. -/
inductive SignalType where
  | githubPr
  | sorobanContract
  | stellarDex
  | hackathon
  | scfGrant
  | grantfoxBounty
  | trustlessWork
  deriving DecidableEq

/-- Badge milestones: seven active, three reserved. The contracts accept all
ten alike. -/
inductive MilestoneType where
  | firstPr
  | firstContract
  | hackathonParticipant
  | risingContributor
  | multiRepoContributor
  | firstSorobanInvocation
  | fullStackBuilder
  | firstBounty
  | firstGrant
  | firstTrustlessWork
  deriving DecidableEq

/-- The error values of all four contracts.  The comment gives the
discriminant. -/
inductive ContractError where
  | alreadyInitialized -- 100
  | notInitialized -- 101
  | unauthorized -- 102
  | passportNotFound -- 200
  | passportAlreadyExists -- 201
  | credentialAlreadyExists -- 300
  | credentialNotFound -- 301
  | archiveRecordRequired -- 302
  | invalidScore -- 400
  | historyCapExceeded -- 401
  | badgeAlreadyMinted -- 500
  | badgeNotFound -- 501
  | transferNotAllowed -- 502
  deriving DecidableEq

end ForgePass.Contracts
