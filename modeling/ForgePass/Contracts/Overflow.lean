import ForgePass.Contracts.Registry

/-!
# When counters run over

The contracts count archives in 32 bits, and credentials and badges in 64, and
nothing checks that there is room.  What becomes of the registers then is said
here without an assumption.  Ids are places modulo 2 ^ 64, in the registers as
in the contracts.  A wallet's archives are read from where the counter last
began again, and a removal takes their number for zero when the counter does.
A badge's number leads to the badge minted last under it.

Registers whose ids are the places themselves are in
`ForgePass.Contracts.Unbounded`.
-/

namespace ForgePass.Contracts.System

open ForgePass.Verified
open ForgePass.Verified.Machine

variable {A S M : Type}

/-- The files of the credential store. -/
def filesOf (r : Registers A S M) : A → CredentialStore.File S :=
  (r .credentialStore).content fun _ => .blank

/-- The roll of the badge contract. -/
def rollOf (r : Registers A S M) : List (SoulboundNft.Mint A M) :=
  (r .soulboundNft).content []

variable [DecidableEq A] [DecidableEq S] [DecidableEq M]

/-- The same, where only the number of archives is counted otherwise. -/
def registryWrappedOf : (k : Contract) →
    Machine (Deployment A (k.Content A S M)) (Invocation A (k.Call A S M))
      k.Answer
  | .credentialStore => CredentialStore.registryWrapped
  | k => registryOf k

/-- The system as registers, under counters that wrap. Only the credential
store takes notice: its guard reads the number of archives modulo 2 ^ 32. -/
def registryWrapped : Machine (Registers A S M) (Request A S M) Response :=
  family registryWrappedOf

/-- The storage of one contract keeps of its content what its counters can tell
apart. -/
def KeepsWrapped : (k : Contract) → k.Store A S M →
    Deployment A (k.Content A S M) → Prop
  | .credentialStore => Stands CredentialStore.machine.init CredentialStore.Kept
  | .soulboundNft => Stands SoulboundNft.machine.init SoulboundNft.Kept
  | k => Keeps k

theorem contract_refines_wrapped : ∀ k : Contract,
    Refines (contract (A := A) (S := S) (M := M) k) (registryWrappedOf k) Any
      (KeepsWrapped k)
  | .passport => Passport.refines_registry
  | .credentialStore => CredentialStore.refines_registryWrapped
  | .trustScore => TrustScore.refines_registry
  | .soulboundNft => SoulboundNft.refines_registryWrapped

theorem host_refines_wrapped :
    Refines (host (A := A) (S := S) (M := M)) registryWrapped (fun _ _ => True)
      (fun s r => ∀ k, KeepsWrapped k (s k) (r k)) :=
  Refines.family contract_refines_wrapped

/-- Every reader returns what the registers say, as far as the counters
reach. -/
structure ReadableWrapped (s : State A S M) (r : Registers A S M) : Prop where
  passport : Passport.Reads (s .passport) (r .passport)
  credentialStore : CredentialStore.Reads (lastLap UInt32.size)
    (s .credentialStore) (r .credentialStore)
  trustScore : TrustScore.Reads (s .trustScore) (r .trustScore)
  soulboundNft : SoulboundNft.ReadsWrapped (s .soulboundNft) (r .soulboundNft)

theorem readable_of_keepsWrapped {s : State A S M} {r : Registers A S M}
    (h : ∀ k, KeepsWrapped k (s k) (r k)) : ReadableWrapped s r where
  passport := Passport.reads_of_stands (h .passport)
  credentialStore := CredentialStore.readsWrapped_of_stands (h .credentialStore)
  trustScore := TrustScore.reads_of_stands (h .trustScore)
  soulboundNft := SoulboundNft.readsWrapped_of_stands (h .soulboundNft)

theorem run_keepsWrapped (rs : List (Request A S M)) :
    (∀ k, KeepsWrapped k (host.run rs k) (registryWrapped.run rs k)) ∧
      host.history rs = registryWrapped.history rs := by
  apply host_refines_wrapped.run_history
  rw [each_iff]
  exact fun _ _ _ => trivial

/-- **Refinement without room.**  Whatever the counters do, the deployed
contracts answer every request as the registers under wrapping counters do, and
their readers return what is read off these. -/
theorem host_refines_registryWrapped (rs : List (Request A S M)) :
    host.history rs = registryWrapped.history rs ∧
      ReadableWrapped (host.run rs) (registryWrapped.run rs) := by
  obtain ⟨hRun, hHistory⟩ := run_keepsWrapped rs
  exact ⟨hHistory, readable_of_keepsWrapped hRun⟩

/-! ## How long the wrapping stays hidden -/

theorem registryWrapped_init :
    (registryWrapped (A := A) (S := S) (M := M)).init = registry.init := by
  funext k
  cases k <;> rfl

theorem registryWrapped_step {r : Registers A S M}
    (hFits : CredentialStore.Fits (filesOf r)) (i : Request A S M) :
    registryWrapped.step r i = registry.step r i := by
  obtain ⟨k, i⟩ := i
  apply family_step_congr
  cases k with
  | passport => rfl
  | credentialStore => exact CredentialStore.registryWrapped_step hFits i
  | trustScore => rfl
  | soulboundNft => rfl

theorem fits_of_step {r : Registers A S M} {i : Request A S M}
    (h : CredentialStore.Fits (filesOf (registry.step r i).2)) :
    CredentialStore.Fits (filesOf r) := by
  obtain ⟨k, i⟩ := i
  cases k with
  | passport => exact h
  | credentialStore => exact CredentialStore.Fits.of_step h
  | trustScore => exact h
  | soulboundNft => exact h

/-- While every wallet has less than 2 ^ 32 archives, the counter of archives
has not wrapped anywhere, and the deployed contracts answer as the registers
do. -/
theorem host_eq_registry {rs : List (Request A S M)}
    (hFits : CredentialStore.Fits (filesOf (registry.run rs))) :
    host.history rs = registry.history rs ∧
      ReadableWrapped (host.run rs) (registry.run rs) := by
  obtain ⟨hHistory, hReads⟩ := host_refines_registryWrapped rs
  obtain ⟨hSame, hSameHistory⟩ := run_history_eq
    (I := fun r => CredentialStore.Fits (filesOf r)) registryWrapped_init
    (fun _ _ => fits_of_step) (fun _ i hr => registryWrapped_step hr i) hFits
  rw [hSame] at hReads
  exact ⟨hHistory.trans hSameHistory, hReads⟩

end ForgePass.Contracts.System
