import ForgePass.Contracts.CredentialStoreSpec
import ForgePass.Contracts.PassportSpec
import ForgePass.Contracts.SoulboundNftSpec
import ForgePass.Contracts.TrustScoreSpec

/-!
# The four contracts side by side

The contracts share no storage and do not call each other, so the deployed
system is a family of machines: an invocation addresses one of them.  All four
are admin-guarded; only the passport has calls that another address may
authorise.
-/

namespace ForgePass.Contracts.System

open ForgePass.Verified

/-- The deployed contracts. -/
inductive Contract where
  | passport
  | credentialStore
  | trustScore
  | soulboundNft
  deriving DecidableEq

/-- Storage of one contract. -/
@[reducible] def Contract.Store (A S M : Type) : Contract → Type
  | .passport => Passport.Store A
  | .credentialStore => CredentialStore.Store A S
  | .trustScore => TrustScore.Store A
  | .soulboundNft => SoulboundNft.Store A M

/-- Calls of one contract. -/
@[reducible] def Contract.Call (A S M : Type) : Contract → Type
  | .passport => Passport.Call A
  | .credentialStore => CredentialStore.Call A S
  | .trustScore => TrustScore.Call A
  | .soulboundNft => SoulboundNft.Call A M

/-- Answers of one contract. -/
@[reducible] def Contract.Answer : Contract → Type
  | .passport => Passport.Answer
  | .credentialStore => CredentialStore.Answer
  | .trustScore => TrustScore.Answer
  | .soulboundNft => SoulboundNft.Answer

/-- Storage of all contracts. -/
abbrev State (A S M : Type) := (k : Contract) → k.Store A S M

/-- An invocation of one of the contracts, with the signatures it carries and
the time of its ledger. -/
abbrev Request (A S M : Type) := Σ k : Contract, Invocation A (k.Call A S M)

/-- An answer of one of the contracts. -/
abbrev Response := Σ k : Contract, k.Answer

/-- The stored administrator of one contract. Nothing makes the four agree:
each is installed by itself. -/
def adminOf {A S M : Type} : (k : Contract) → k.Store A S M → Option A
  | .passport => Passport.adminOf
  | .credentialStore => CredentialStore.adminOf
  | .trustScore => TrustScore.adminOf
  | .soulboundNft => SoulboundNft.adminOf

variable {A S M : Type} [DecidableEq A]

/-- The administrator an answered call installed, if it did. -/
def installs : (k : Contract) → Invocation A (k.Call A S M) × k.Answer →
    Option A
  | .passport => Passport.installs
  | .credentialStore => CredentialStore.installs
  | .trustScore => TrustScore.installs
  | .soulboundNft => SoulboundNft.installs

/-- The calls that another address than the administrator may authorise: of all
entry points only the update of a passport's CID. -/
def OwnerUpdate : (k : Contract) → Invocation A (k.Call A S M) → Prop
  | .passport => Passport.OwnerUpdate
  | .credentialStore => fun _ => False
  | .trustScore => fun _ => False
  | .soulboundNft => fun _ => False

variable [DecidableEq S] [DecidableEq M]

/-- The code of each contract. -/
def contract : (k : Contract) →
    Machine (k.Store A S M) (Invocation A (k.Call A S M)) k.Answer
  | .passport => Passport.machine
  | .credentialStore => CredentialStore.machine
  | .trustScore => TrustScore.machine
  | .soulboundNft => SoulboundNft.machine

/-- The deployed system: the four contracts side by side, fresh at first. They
share no storage, so a request moves one of them and leaves the other three as
they are. -/
def host : Machine (State A S M) (Request A S M) Response :=
  Machine.family contract

theorem adminGuarded : ∀ k : Contract,
    AdminGuarded (contract (A := A) (S := S) (M := M) k) (adminOf k)
      (installs k) (OwnerUpdate k)
  | .passport => Passport.adminGuarded
  | .credentialStore => CredentialStore.adminGuarded
  | .trustScore => TrustScore.adminGuarded
  | .soulboundNft => SoulboundNft.adminGuarded

end ForgePass.Contracts.System
