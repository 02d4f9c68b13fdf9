import ForgePass.Contracts.Registry
import ForgePass.Verified.Wrapping

/-!
# Room in the counters

The contracts take ids and slots from counters that they never check.  Much of
what is known about them holds while these have room, which `RoomLeft` asks of
each call in the state it meets.  Here this is reduced to counting: a run has
room exactly if it added fewer than `2 ^ 64` credentials and fewer than
`2 ^ 32` archives for each wallet, and minted fewer than `2 ^ 64` badges.  A
run of fewer than `2 ^ 32` requests has room whatever they are.
-/

namespace ForgePass.Contracts

open ForgePass.Verified
open ForgePass.Verified.Machine

namespace CredentialStore

variable {A S : Type}

/-- The counters of the contract. -/
inductive Counter (A : Type) where
  | ids (wallet : A)
  | slots (wallet : A)

namespace Counter

/-- What a counter shows. -/
def value : Counter A → Store A S → Nat
  | .ids w, s => (credentialCounter s w).toNat
  | .slots w, s => (archiveIndex s w).toNat

/-- How many values a counter has: ids are counted in 64 bits, archive slots in
32. -/
def size : Counter A → Nat
  | .ids _ => UInt64.size
  | .slots _ => UInt32.size

/-- The answered call took a number from the counter. Refused calls take none,
and a removal none either. -/
def uses [DecidableEq A] : Counter A → Invocation A (Call A S) × Answer → Bool
  | .ids w, (⟨_, .addCredential v _ _ _ _⟩, .ok _) => v = w
  | .slots w, (⟨_, .addArchiveRecord v _ _ _ _⟩, .ok _) => v = w
  | _, _ => false

end Counter

variable [DecidableEq A]

theorem uses_refused (x : Counter A) (i : Invocation A (Call A S))
    (e : Failure ContractError) : x.uses (i, .error e) = false := by
  obtain ⟨env, call⟩ := i
  cases x with
  | ids w => cases call <;> rfl
  | slots w => cases call <;> rfl

variable [DecidableEq S]

theorem counts : Counts (machine (A := A) (S := S)) Counter.uses Counter.value
    Counter.size where
  start x := by cases x <;> rfl
  step x s i := by
    have hStep := step_transition s i
    generalize (machine.step s i).1 = answer at hStep
    generalize (machine.step s i).2 = s' at hStep
    cases hStep with
    | refused i e =>
        rw [uses_refused]
        rfl
    | initialized env a hAdmin => cases x <;> rfl
    | accepted env w t sid d h hSigned hFresh =>
        cases x with
        | ids v =>
            by_cases hv : w = v
            · subst hv
              simp [Counter.value, Counter.uses, Counter.size, UInt64.toNat_add]
            · have hv' : v ≠ w := fun hEq => hv hEq.symm
              simp [Counter.value, Counter.uses, hv, hv']
        | slots v => simp [Counter.value, Counter.uses]
    | anchored env w root count time cid hSigned =>
        cases x with
        | ids v => simp [Counter.value, Counter.uses]
        | slots v =>
            by_cases hv : w = v
            · subst hv
              simp [Counter.value, Counter.uses, Counter.size, UInt32.toNat_add]
            · have hv' : v ≠ w := fun hEq => hv hEq.symm
              simp [Counter.value, Counter.uses, hv, hv']
    | pruned env w sids hSigned hGuard =>
        cases x with
        | ids v => simp [Counter.value, Counter.uses]
        | slots v => simp [Counter.value, Counter.uses]
  positive x := by
    cases x with
    | ids w => exact (by decide : 0 < UInt64.size)
    | slots w => exact (by decide : 0 < UInt32.size)

/-- Room is what the used counters need. -/
theorem roomy_iff_roomLeft (s : Store A S) (i : Invocation A (Call A S)) :
    machine.Roomy Counter.uses Counter.value Counter.size s i ↔
      RoomLeft s i := by
  constructor
  · intro h
    obtain ⟨env, call⟩ := i
    cases call with
    | initializeAdmin a => trivial
    | addCredential w t sid d hash =>
        rintro ⟨hSigned, hFresh⟩
        apply h (.ids w)
        rw [step_addCredential, if_pos hSigned, if_neg (Bool.eq_false_iff.mp hFresh)]
        exact decide_eq_true rfl
    | addArchiveRecord w root count time cid =>
        intro hSigned
        apply h (.slots w)
        rw [step_addArchiveRecord, if_pos hSigned]
        exact decide_eq_true rfl
    | removeCredentials w sids => trivial
  · intro hRoom x hUses
    have hStep := step_transition s i
    generalize (machine.step s i).1 = answer at hStep hUses
    generalize (machine.step s i).2 = s' at hStep
    cases hStep with
    | refused i e =>
        rw [uses_refused] at hUses
        cases hUses
    | initialized env a hAdmin => cases x <;> cases hUses
    | accepted env w t sid d h hSigned hFresh =>
        cases x with
        | ids v =>
            obtain rfl : w = v := of_decide_eq_true hUses
            exact hRoom.credential hSigned hFresh
        | slots v => cases hUses
    | anchored env w root count time cid hSigned =>
        cases x with
        | ids v => cases hUses
        | slots v =>
            obtain rfl : w = v := of_decide_eq_true hUses
            exact hRoom hSigned
    | pruned env w sids hSigned hGuard => cases x <;> cases hUses

end CredentialStore

namespace SoulboundNft

variable {A M : Type}

/-- The answered call took a number from the one counter of the contract. -/
def uses : Unit → Invocation A (Call A M) × Answer → Bool
  | (), (⟨_, .mint _ _ _ _⟩, .ok _) => true
  | _, _ => false

theorem uses_refused (i : Invocation A (Call A M))
    (e : Failure ContractError) : uses () (i, .error e) = false := by
  obtain ⟨env, call⟩ := i
  cases call <;> rfl

variable [DecidableEq A] [DecidableEq M]

theorem counts : Counts (machine (A := A) (M := M)) uses
    (fun _ s => (badgeCounter s).toNat) (fun _ => UInt64.size) where
  start _ := rfl
  step _ s i := by
    have hStep := step_transition s i
    generalize (machine.step s i).1 = answer at hStep
    generalize (machine.step s i).2 = s' at hStep
    cases hStep with
    | refused i e => rw [uses_refused, if_neg Bool.false_ne_true]
    | initialized env a hAdmin => rfl
    | minted env w m cid time hSigned hFresh =>
        rw [badgeCounter_issueBadge, UInt64.toNat_add]
        rfl
  positive _ := by decide

theorem roomy_iff_roomLeft (s : Store A M) (i : Invocation A (Call A M)) :
    machine.Roomy uses (fun _ s => (badgeCounter s).toNat)
        (fun _ => UInt64.size) s i ↔ RoomLeft s i := by
  constructor
  · intro h
    obtain ⟨env, call⟩ := i
    cases call with
    | initializeAdmin a => trivial
    | mint w m cid time =>
        rintro ⟨hSigned, hFresh⟩
        apply h ()
        rw [step_mint, if_pos hSigned, if_neg (Bool.eq_false_iff.mp hFresh)]
        rfl
  · intro hRoom _ hUses
    have hStep := step_transition s i
    generalize (machine.step s i).1 = answer at hStep hUses
    generalize (machine.step s i).2 = s' at hStep
    cases hStep with
    | refused i e =>
        rw [uses_refused] at hUses
        cases hUses
    | initialized env a hAdmin => cases hUses
    | minted env w m cid time hSigned hFresh => exact hRoom ⟨hSigned, hFresh⟩

end SoulboundNft

namespace System

variable {A S M : Type}

/-- The counters of a contract. -/
@[reducible] def Contract.Counter (A : Type) : Contract → Type
  | .passport => Empty
  | .credentialStore => CredentialStore.Counter A
  | .trustScore => Empty
  | .soulboundNft => Unit

/-- A counter of one of the contracts. -/
abbrev Counter (A : Type) := Σ k : Contract, k.Counter A

/-- What a counter of one contract shows. Passports and scores have no counter
to run out of. -/
def valueIn : (k : Contract) → k.Counter A → k.Store A S M → Nat
  | .passport => fun x => x.elim
  | .credentialStore => CredentialStore.Counter.value
  | .trustScore => fun x => x.elim
  | .soulboundNft => fun _ s => (SoulboundNft.badgeCounter s).toNat

/-- How many values a counter of one contract has. -/
def sizeIn : (k : Contract) → k.Counter A → Nat
  | .passport => fun x => x.elim
  | .credentialStore => CredentialStore.Counter.size
  | .trustScore => fun x => x.elim
  | .soulboundNft => fun _ => UInt64.size

/-- How many values the counter has. -/
def Counter.size (x : Counter A) : Nat := sizeIn x.1 x.2

variable [DecidableEq A]

/-- The answered call took a number from the counter of its contract. -/
def contractUses : (k : Contract) → k.Counter A →
    Invocation A (k.Call A S M) × k.Answer → Bool
  | .passport => fun x => x.elim
  | .credentialStore => CredentialStore.Counter.uses
  | .trustScore => fun x => x.elim
  | .soulboundNft => SoulboundNft.uses

/-- The answered request took a number from the counter. -/
def uses : Counter A → Request A S M × Response → Bool := usesIn contractUses

variable [DecidableEq S] [DecidableEq M]

theorem contract_counts : ∀ k : Contract,
    Counts (contract (A := A) (S := S) (M := M) k) (contractUses k) (valueIn k)
      (sizeIn k)
  | .passport => ⟨fun x => x.elim, fun x => x.elim, fun x => x.elim⟩
  | .credentialStore => CredentialStore.counts
  | .trustScore => ⟨fun x => x.elim, fun x => x.elim, fun x => x.elim⟩
  | .soulboundNft => SoulboundNft.counts

theorem contract_roomy_iff : ∀ (k : Contract) (s : k.Store A S M)
    (i : Invocation A (k.Call A S M)),
    (contract k).Roomy (contractUses k) (valueIn k) (sizeIn k) s i ↔ RoomIn k s i
  | .passport => fun _ _ => ⟨fun _ => trivial, fun _ x => x.elim⟩
  | .credentialStore => CredentialStore.roomy_iff_roomLeft
  | .trustScore => fun _ _ => ⟨fun _ => trivial, fun _ x => x.elim⟩
  | .soulboundNft => SoulboundNft.roomy_iff_roomLeft

theorem host_counts : Counts (host (A := A) (S := S) (M := M)) uses
    (fun x s => valueIn x.1 x.2 (s x.1)) Counter.size :=
  Counts.family contract_counts

theorem host_roomy : host.Roomy uses (fun x s => valueIn x.1 x.2 (s x.1))
    Counter.size = fun (s : State A S M) i => RoomIn i.1 (s i.1) i.2 := by
  funext s ⟨k, i⟩
  have hFamily := @roomy_family_iff _ _ _ _ _ _ contract contractUses valueIn
    sizeIn s k i
  exact propext (hFamily.trans (contract_roomy_iff k (s k) i))

/-- **Room by counting.**  The calls of a run find their counters below the
maximum if and only if no counter was used as often as it has values.  Whether
they do or not, each counter tells how often it was used, modulo its size. -/
theorem room_iff_used (rs : List (Request A S M)) :
    (host.Each (fun s i => RoomIn i.1 (s i.1) i.2) rs ↔
        ∀ x : Counter A, host.used uses x rs < x.size) ∧
      ∀ x : Counter A, valueIn x.1 x.2 (host.run rs x.1) =
        host.used uses x rs % x.size := by
  constructor
  · rw [← host_counts.each_roomy_iff, host_roomy]
  · exact fun x => host_counts.counter_run x rs

omit [DecidableEq A] in
theorem Counter.le_size (x : Counter A) : UInt32.size ≤ x.size := by
  obtain ⟨k, x⟩ := x
  cases k with
  | passport => exact x.elim
  | credentialStore =>
      cases x with
      | ids w => exact (by decide : UInt32.size ≤ UInt64.size)
      | slots w => exact Nat.le_refl _
  | trustScore => exact x.elim
  | soulboundNft => exact (by decide : UInt32.size ≤ UInt64.size)

/-- A short run cannot be told from the registers, whatever it is. -/
theorem short_run_refines {rs : List (Request A S M)}
    (hShort : rs.length < UInt32.size) :
    host.history rs = registry.history rs ∧
      Readable (host.run rs) (registry.run rs) := by
  have hRoom : host.Each (fun s i => RoomIn i.1 (s i.1) i.2) rs := by
    rw [← host_roomy]
    exact host_counts.each_of_length fun x => Nat.lt_of_lt_of_le hShort x.le_size
  obtain ⟨hRun, hHistory⟩ := host_refines.run_history hRoom
  exact ⟨hHistory, readable_of_keeps hRun⟩

end System

end ForgePass.Contracts
