import ForgePass.Contracts.BadgeRegistry
import ForgePass.Contracts.CredentialRegistry
import ForgePass.Contracts.PassportRegistry
import ForgePass.Contracts.ScoreRegistry
import ForgePass.Contracts.System

/-!
# ForgePass without its storage

What the four contracts are for, put together: profiles, files of claims and
archives, logs of scores and one roll of badges, none of which ever loses an
entry.  While the counters have room, the deployed contracts cannot be told
from this: every request gets the same answer, and every reader returns what
can be read off the registers.
-/

namespace ForgePass.Contracts.System

open ForgePass.Verified
open ForgePass.Verified.Machine

variable {A S M : Type}

/-- What one contract is to keep, free of storage keys and counters: profiles,
files, a log of scores, or a roll of mints. -/
@[reducible] def Contract.Content (A S M : Type) : Contract → Type
  | .passport => Passport.Book A
  | .credentialStore => A → CredentialStore.File S
  | .trustScore => TrustScore.Log A
  | .soulboundNft => List (SoulboundNft.Mint A M)

/-- What all contracts are to keep, with their administrators. A contract that
is fresh has neither. -/
abbrev Registers (A S M : Type) :=
  (k : Contract) → Deployment A (k.Content A S M)

variable [DecidableEq A] [DecidableEq S] [DecidableEq M]

/-- What each contract is to keep, as a machine. -/
def registryOf : (k : Contract) →
    Machine (Deployment A (k.Content A S M)) (Invocation A (k.Call A S M))
      k.Answer
  | .passport => Passport.registry
  | .credentialStore => CredentialStore.registry
  | .trustScore => TrustScore.registry
  | .soulboundNft => SoulboundNft.registry

/-- The system as registers: what the four contracts are for, with nothing said
about how they store it. -/
def registry : Machine (Registers A S M) (Request A S M) Response :=
  family registryOf

/-- A call that passes its checks finds the counters it uses below their
maximum. -/
def RoomIn : (k : Contract) → k.Store A S M → Invocation A (k.Call A S M) → Prop
  | .passport => Any
  | .credentialStore => CredentialStore.RoomLeft
  | .trustScore => Any
  | .soulboundNft => SoulboundNft.RoomLeft

/-- The storage of one contract keeps its content. -/
def Keeps : (k : Contract) → k.Store A S M → Deployment A (k.Content A S M) →
    Prop
  | .passport => Stands Passport.machine.init fun a s book =>
      s = Passport.store (.installed a book)
  | .credentialStore => Stands CredentialStore.machine.init fun a s files =>
      CredentialStore.Kept a s files ∧ CredentialStore.Fits files
  | .trustScore => Stands TrustScore.machine.init fun a s log =>
      ∃ book, TrustScore.Windows log book ∧
        s = TrustScore.store (.installed a book)
  | .soulboundNft => Stands SoulboundNft.machine.init fun a s roll =>
      SoulboundNft.Kept a s roll ∧ SoulboundNft.Fits roll

theorem contract_refines : ∀ k : Contract,
    Refines (contract (A := A) (S := S) (M := M) k) (registryOf k) (RoomIn k)
      (Keeps k)
  | .passport => Passport.refines_registry
  | .credentialStore => CredentialStore.refines_registry
  | .trustScore => TrustScore.refines_registry
  | .soulboundNft => SoulboundNft.refines_registry

/-- Every reader of every contract returns what the registers say,
administrators included. -/
structure Readable (s : State A S M) (r : Registers A S M) : Prop where
  passport : Passport.Reads (s .passport) (r .passport)
  credentialStore : CredentialStore.Reads id (s .credentialStore)
    (r .credentialStore)
  trustScore : TrustScore.Reads (s .trustScore) (r .trustScore)
  soulboundNft : SoulboundNft.Reads (s .soulboundNft) (r .soulboundNft)

theorem host_refines : Refines (host (A := A) (S := S) (M := M)) registry
    (fun s i => RoomIn i.1 (s i.1) i.2) (fun s r => ∀ k, Keeps k (s k) (r k)) :=
  Refines.family contract_refines

theorem readable_of_keeps {s : State A S M} {r : Registers A S M}
    (h : ∀ k, Keeps k (s k) (r k)) : Readable s r where
  passport := Passport.reads_of_stands (h .passport)
  credentialStore := CredentialStore.reads_of_stands (h .credentialStore)
  trustScore := TrustScore.reads_of_stands (h .trustScore)
  soulboundNft := SoulboundNft.reads_of_stands (h .soulboundNft)

/-- **Refinement.** While the counters have room, the deployed contracts answer
every request as the registers do, and their readers return what is read off
the registers. So callers need not know how the contracts store anything. -/
theorem host_refines_registry {rs : List (Request A S M)}
    (hRoom : host.Each (fun s i => RoomIn i.1 (s i.1) i.2) rs) :
    host.history rs = registry.history rs ∧
      Readable (host.run rs) (registry.run rs) := by
  obtain ⟨hRun, hHistory⟩ := host_refines.run_history hRoom
  exact ⟨hHistory, readable_of_keeps hRun⟩

/-- A credential of wallet 7 is archived and removed: it stays on file, struck
out. -/
theorem host_refines_registry_struckOut :
    let env : Env Nat := ⟨{0}, 100⟩
    let rs : List (Request Nat SignalType MilestoneType) :=
      [⟨.credentialStore, ⟨env, .initializeAdmin 0⟩⟩,
        ⟨.credentialStore, ⟨env, .addCredential 7 .githubPr [3] 50 [0xaa]⟩⟩,
        ⟨.credentialStore,
          ⟨env, .addArchiveRecord 7 (Vector.replicate 32 0) 1 60 [0xcc]⟩⟩,
        ⟨.credentialStore, ⟨env, .removeCredentials 7 [[3]]⟩⟩]
    (((registry.run rs .credentialStore).content fun _ => .blank) 7).claims =
        [⟨.githubPr, [3], 50, [0xaa], true⟩] ∧
      CredentialStore.getCredentials (host.run rs .credentialStore) 7 = [] := by
  intro env rs
  have hRoom : host.Each (fun s i => RoomIn i.1 (s i.1) i.2) rs :=
    ⟨trivial, fun _ => by decide, fun _ => by decide, trivial, trivial⟩
  refine ⟨rfl, ?_⟩
  rw [(host_refines_registry hRoom).2.credentialStore.credentials 7]
  rfl

end ForgePass.Contracts.System
