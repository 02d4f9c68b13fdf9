import ForgePass.Contracts.CredentialBook
import ForgePass.Contracts.LedgerTime
import ForgePass.Contracts.MintBook
import ForgePass.Contracts.Registry

/-!
# The power of a coalition

The four contracts ask for the administrator's signature, and
`update_metadata_cid` for the owner's.  What this leaves to a set of addresses
that act together is said here exactly: from the books of the contracts, which
books can they bring about, with calls that carry no authorisation but theirs?

Behind an administrator who is not among them nothing moves but the CIDs of
their own passports.  With the administrator among them everything moves that
can move at all, but for the CID that an owner outside has published.  A
contract that is still fresh belongs to whoever initializes it first, for
which no signature is needed.

The dates of new passports are set by the ledgers, which close one after the
other: a coalition can wait, but not date back.
-/

namespace ForgePass.Contracts

open ForgePass.Verified
open ForgePass.Verified.Machine

namespace TrustScore

variable {A : Type} [DecidableEq A]

/-- Every call admissible for `P` moves the windows as far as `P` may, and
every such move is made by calls of `P`; scores need no room in a counter. -/
theorem coalitionEncoding (P : Set A) :
    Encoding machine (fun s i => Any s i ∧ i.Within P) (store (A := A))
      (Deployment.Evolves Book.blank (AllOrNothing P Book.Grows)) := by
  apply bookEncoding.within Book.Grows.trans adminGuarded signatureOnly
    (fun _ _ => rfl) step_fresh
  intro a
  exact Follows.step (i := ⟨⟨∅, 0⟩, .initializeAdmin a⟩)
    ⟨trivial, Invocation.within_empty P _ _⟩ (setAdmin_empty a)

end TrustScore

namespace SoulboundNft

variable {A M : Type} [DecidableEq A] [DecidableEq M]

/-- The same for the badge log, as long as the badge counter has room. -/
theorem coalitionEncoding (P : Set A) :
    Encoding machine (fun s i => RoomLeft s i ∧ i.Within P)
      (store (A := A) (M := M))
      (Deployment.Evolves Book.blank (AllOrNothing P Book.Extends)) := by
  apply bookEncoding.within (fun _ _ _ => List.IsPrefix.trans) adminGuarded
    signatureOnly (fun _ _ => rfl) step_fresh
  intro a
  exact Follows.step (i := ⟨⟨∅, 0⟩, .initializeAdmin a⟩)
    ⟨trivial, Invocation.within_empty P _ _⟩ (setAdmin_empty a)

end SoulboundNft

namespace CredentialStore

variable {A S : Type} [DecidableEq A] [DecidableEq S]

/-- The same for the accounts of the credential store, as long as both of its
counters have room. -/
theorem coalitionEncoding [Inhabited S] (P : Set A) :
    Encoding machine (fun s i => RoomLeft s i ∧ i.Within P)
      (store (A := A) (S := S))
      (Deployment.Evolves Book.blank (AllOrNothing P Book.Grows)) := by
  apply bookEncoding.within Book.Grows.trans adminGuarded signatureOnly
    (fun _ _ => rfl) step_fresh
  intro a
  exact Follows.step (i := ⟨⟨∅, 0⟩, .initializeAdmin a⟩)
    ⟨trivial, Invocation.within_empty P _ _⟩ (setAdmin_empty a)

end CredentialStore

namespace System

variable {A S M : Type}

/-- The book that one contract keeps. -/
@[reducible] def Contract.Book (A S M : Type) : Contract → Type
  | .passport => Passport.Book A
  | .credentialStore => CredentialStore.Book A S
  | .trustScore => TrustScore.Book A
  | .soulboundNft => SoulboundNft.Book A M

/-- The books of all contracts, with their administrators. -/
abbrev Books (A S M : Type) := (k : Contract) → Deployment A (k.Book A S M)

variable [DecidableEq A] [DecidableEq M]

/-- The storage in which a book is written. -/
def storeOf : (k : Contract) → Deployment A (k.Book A S M) → k.Store A S M
  | .passport => Passport.store
  | .credentialStore => CredentialStore.store
  | .trustScore => TrustScore.store
  | .soulboundNft => SoulboundNft.store

/-- The storage in which the books are written: the four contracts side by
side, each with its own book. -/
def stored (b : Books A S M) : State A S M := fun k => storeOf k (b k)

/-- How a coalition can move the book of a contract. Three of the contracts
obey their administrator alone, so there it is all or nothing; a passport obeys
its wallet as well. -/
def MovesBy (P : Set A) : (k : Contract) → Deployment A (k.Book A S M) →
    Deployment A (k.Book A S M) → Prop
  | .passport => Deployment.Evolves Passport.Book.blank
      (Passport.Book.GrowsBy P)
  | .credentialStore => Deployment.Evolves CredentialStore.Book.blank
      (AllOrNothing P CredentialStore.Book.Grows)
  | .trustScore => Deployment.Evolves TrustScore.Book.blank
      (AllOrNothing P TrustScore.Book.Grows)
  | .soulboundNft => Deployment.Evolves SoulboundNft.Book.blank
      (AllOrNothing P SoulboundNft.Book.Extends)

instance : Fintype Contract where
  elems := {.passport, .credentialStore, .trustScore, .soulboundNft}
  complete k := by cases k <;> decide

/-- The same from the time `clock` on. Only passports record when they were
given, so only their book feels the clock. -/
def MovesSince (P : Set A) (clock : UInt64) :
    (k : Contract) → Deployment A (k.Book A S M) →
      Deployment A (k.Book A S M) → Prop
  | .passport => Deployment.Evolves Passport.Book.blank
      (Passport.Book.GrowsBySince P clock)
  | k => MovesBy P k

variable [DecidableEq S] [Inhabited S]

omit [DecidableEq A] [DecidableEq M] [DecidableEq S] [Inhabited S] in
/-- The passport contract has no counters. -/
theorem sentBy_eq (P : Set A) :
    Passport.SentBy P = fun s i => Any s i ∧ i.Within P := by
  funext s i
  exact (true_and _).symm

theorem encodingOf (P : Set A) : ∀ k : Contract,
    Encoding (contract (A := A) (S := S) (M := M) k)
      (fun s i => RoomIn k s i ∧ i.Within P) (storeOf k) (MovesBy P k)
  | .passport => by
      have hBook := Passport.bookEncoding P
      rw [sentBy_eq] at hBook
      exact hBook
  | .credentialStore => CredentialStore.coalitionEncoding P
  | .trustScore => TrustScore.coalitionEncoding P
  | .soulboundNft => SoulboundNft.coalitionEncoding P

theorem booksEncoding (P : Set A) :
    Encoding (host (A := A) (S := S) (M := M))
      (fun s i => RoomIn i.1 (s i.1) i.2 ∧ i.2.Within P) stored
      (Pointwise (MovesBy P)) := Encoding.family (encodingOf P)

/-- While the counters have room, every run leaves written books: nothing else
can be in the storage of the deployed contracts. -/
theorem run_stored {rs : List (Request A S M)}
    (hRoom : host.Each (fun s i => RoomIn i.1 (s i.1) i.2) rs) :
    ∃ b, host.run rs = stored b := by
  have hInit : (host (A := A) (S := S) (M := M)).init =
      stored fun _ => .fresh := by
    funext k
    cases k <;> rfl
  have hAll : host.Each (fun s i => RoomIn i.1 (s i.1) i.2 ∧
      i.2.Within Set.univ) rs :=
    hRoom.imp fun _ i h => ⟨h, i.2.within_univ⟩
  unfold Each at hAll
  rw [hInit] at hAll
  obtain ⟨c, -, hc⟩ := (booksEncoding Set.univ).run hAll
  exact ⟨c, by rw [run, hInit, hc]⟩

/-! ## Under the clock of the ledger -/

/-- The time at which the ledger executes a request. -/
abbrev requestTime (r : Request A S M) : Nat := r.2.time

/-- Requests that find room and that the members of a coalition can send: every
signature they carry is one of theirs. A request without any signature is among
them. -/
abbrev Sendable (P : Set A) (s : State A S M) (r : Request A S M) : Prop :=
  RoomIn r.1 (s r.1) r.2 ∧ r.2.Within P

omit [Inhabited S] in
/-- Only the passport contract looks at the time. -/
theorem timeless (P : Set A) (now : UInt64) : ∀ k : Contract, k ≠ .passport →
    Timeless (contract (A := A) (S := S) (M := M) k) Invocation.time
      (fun s i => RoomIn k s i ∧ i.Within P) now.toNat (Invocation.retimed now)
  | .passport, h => absurd rfl h
  | .credentialStore, _ => CredentialStore.signatureOnly.timeless P now
  | .trustScore, _ => TrustScore.signatureOnly.timeless P now
  | .soulboundNft, _ => SoulboundNft.signatureOnly.timeless P now

/-- The four contracts under a clock: only the passports record the time of a
ledger, the other three may be moved in ledgers of any time. -/
theorem encodingSince (P : Set A) (clock : UInt64) : ∀ k : Contract,
    Encoding (contract (A := A) (S := S) (M := M) k)
      (fun s i => (RoomIn k s i ∧ i.Within P) ∧ clock.toNat ≤ i.time)
      (storeOf k) (MovesSince P clock k)
  | .passport => by
      have hBook := Passport.bookEncodingSince P clock
      rw [sentBy_eq] at hBook
      exact hBook
  | .credentialStore =>
      (encodingOf P .credentialStore).timeless (timeless P clock _ (by decide))
  | .trustScore =>
      (encodingOf P .trustScore).timeless (timeless P clock _ (by decide))
  | .soulboundNft =>
      (encodingOf P .soulboundNft).timeless (timeless P clock _ (by decide))

omit [DecidableEq S] [Inhabited S] in
theorem stored_update (b : Books A S M) (k : Contract)
    (x : Deployment A (k.Book A S M)) :
    stored (Function.update b k x) =
      Function.update (stored b) k (storeOf k x) := by
  funext j
  exact Function.apply_update (fun j => storeOf j) b k x j

omit [Inhabited S] in
/-- What one contract does at a time, the system does. -/
theorem follows_contract {P : Set A} {t : Nat} {s : State A S M} {k : Contract}
    {x : k.Store A S M}
    (h : (contract k).Follows
      (fun s i => (RoomIn k s i ∧ i.Within P) ∧ i.time = t) (s k) x) :
    host.Follows (fun s r => Sendable P s r ∧ requestTime r = t) s
      (Function.update s k x) :=
  @Follows.family Contract _ _ _ _ contract
    (fun k s i => (RoomIn k s i ∧ i.Within P) ∧ i.time = t) s k x h

omit [Inhabited S] in
/-- What one contract does under the clock, the system does. -/
theorem followsOn_contract {P : Set A} {t : Nat} {s : State A S M}
    {k : Contract} {x : k.Store A S M}
    (h : (contract k).FollowsOn Invocation.time
      (fun s i => RoomIn k s i ∧ i.Within P) t (s k) x) :
    host.FollowsOn requestTime (Sendable P) t s (Function.update s k x) :=
  @FollowsOn.family Nat _ Contract _ _ _ _ contract (fun _ i => i.time)
    (fun k s i => RoomIn k s i ∧ i.Within P) t s k x h

/-- The other books can be moved at once. -/
theorem follows_other (P : Set A) (clock : UInt64) (b : Books A S M)
    {k : Contract} (hk : k ≠ .passport) {x : Deployment A (k.Book A S M)}
    (hMove : MovesBy P k (b k) x) :
    host.Follows (fun s r => Sendable P s r ∧ requestTime r = clock.toNat)
      (stored b) (stored (Function.update b k x)) := by
  rw [stored_update]
  apply follows_contract
  exact (timeless P clock k hk).follows_at ((encodingOf P k).carried _ _ hMove)

omit [Inhabited S] in
/-- The passports can be moved in the order of their dates, each new one given
in a ledger that closes at its date. -/
theorem followsOn_passport (P : Set A) (clock : UInt64) (b : Books A S M)
    {x : Deployment A (Passport.Book A)}
    (hMove : MovesSince (S := S) (M := M) P clock .passport (b .passport) x) :
    host.FollowsOn requestTime (Sendable P) clock.toNat (stored b)
      (stored (Function.update b .passport x)) := by
  rw [stored_update]
  apply followsOn_contract
  obtain ⟨is, hTicks, hSent, hRun⟩ := Passport.followsOn_evolves hMove
  rw [sentBy_eq] at hSent
  exact ⟨is, hTicks, hSent, hRun⟩

/-- So all books can: first the three that do not feel the clock, at once, and
then the passports. -/
theorem followsOn_moves {P : Set A} {clock : UInt64} {b c : Books A S M}
    (h : ∀ k, MovesSince P clock k (b k) (c k)) :
    host.FollowsOn requestTime (Sendable P) clock.toNat (stored b)
      (stored c) := by
  have hCredentials := follows_other P clock b (k := .credentialStore)
    (by decide) (h .credentialStore)
  generalize hb₁ : Function.update b .credentialStore (c .credentialStore) = b₁
    at hCredentials
  have hScores := follows_other P clock b₁ (k := .trustScore) (by decide)
    (by rw [← hb₁]; exact h .trustScore)
  generalize hb₂ : Function.update b₁ .trustScore (c .trustScore) = b₂
    at hScores
  have hBadges := follows_other P clock b₂ (k := .soulboundNft) (by decide)
    (by rw [← hb₂, ← hb₁]; exact h .soulboundNft)
  generalize hb₃ : Function.update b₂ .soulboundNft (c .soulboundNft) = b₃
    at hBadges
  have hPassports := followsOn_passport P clock b₃
    (by rw [← hb₃, ← hb₂, ← hb₁]; exact h .passport)
  have hAll : Function.update b₃ .passport (c .passport) = c := by
    funext k
    subst hb₁ hb₂ hb₃
    cases k <;> rfl
  rw [hAll] at hPassports
  exact .after (Nat.le_refl _) ((hCredentials.trans hScores).trans hBadges)
    hPassports

/-- **The power of a coalition.**  A run of requests that find room in the
counters leaves written books.  From any books, such requests, signed by the
members of a coalition alone and executed in the order of their ledgers, the
first not before `clock`, lead exactly to the books that the members can move
them to from then on. -/
theorem coalition_reaches_iff :
    (∀ rs : List (Request A S M),
        host.Each (fun s r => RoomIn r.1 (s r.1) r.2) rs →
          ∃ b, host.run rs = stored b) ∧
      ∀ (P : Set A) (clock : UInt64) (b : Books A S M) (t : State A S M),
        host.FollowsOn requestTime (Sendable P) clock.toNat (stored b) t ↔
          ∃ c, (∀ k, MovesSince P clock k (b k) (c k)) ∧ stored c = t := by
  refine ⟨fun rs hRoom => run_stored hRoom, fun P clock b t => ?_⟩
  have hEncoding : Encoding (host (A := A) (S := S) (M := M))
      (fun s r => Sendable P s r ∧ clock.toNat ≤ requestTime r) stored
      (Pointwise (MovesSince P clock)) := Encoding.family (encodingSince P clock)
  rw [hEncoding.followsOn_iff fun b c hMoves => followsOn_moves hMoves.each]
  have hFinite : ∀ c : Books A S M, {k | b k ≠ c k}.Finite := fun c =>
    Set.toFinite _
  constructor
  · rintro ⟨c, hMoves, hc⟩
    exact ⟨c, hMoves.each, hc⟩
  · rintro ⟨c, hMoves, hc⟩
    exact ⟨c, ⟨hFinite c, hMoves⟩, hc⟩

/-- From the ledger of time 200 on, an administrator can give a passport that is
dated 250, and none that is dated 150. -/
theorem coalition_reaches_iff_dated :
    let profile : UInt64 → Passport.Profile := fun time => ⟨[0x51], time, false⟩
    let book : Passport.Book Nat → Books Nat SignalType MilestoneType :=
      fun x => Function.update (fun _ => .fresh) .passport (.installed 0 x)
    let given : UInt64 → State Nat SignalType MilestoneType := fun time =>
      stored (book (Function.update Passport.Book.blank 7 (some (profile time))))
    (∃ b, host.run [⟨.passport, ⟨⟨∅, 200⟩, .initializeAdmin 0⟩⟩] =
        stored (S := SignalType) (M := MilestoneType) b) ∧
      host.FollowsOn requestTime (Sendable {0}) (200 : UInt64).toNat
          (stored (book Passport.Book.blank)) (given 250) ∧
        ¬host.FollowsOn requestTime (Sendable {0}) (200 : UInt64).toNat
          (stored (book Passport.Book.blank)) (given 150) := by
  intro profile book given
  have : Inhabited SignalType := ⟨.githubPr⟩
  refine ⟨coalition_reaches_iff.1 _ ⟨trivial, trivial⟩,
    (coalition_reaches_iff.2 _ _ _ _).mpr ⟨_, ?_, rfl⟩, ?_⟩
  · intro k
    cases k with
    | passport =>
        refine .grown 0 _ _ (.update (fun _ => Passport.PermittedSince.refl) ?_)
        refine ⟨rfl, fun _ p hp => ?_⟩
        rw [← Option.some.inj hp]
        decide
    | credentialStore => exact .waiting
    | trustScore => exact .waiting
    | soulboundNft => exact .waiting
  · intro hFollows
    obtain ⟨c, hMoves, hc⟩ := (coalition_reaches_iff.2 _ _ _ _).mp hFollows
    have hPassport := hMoves .passport
    have hStore : Passport.store (c .passport) = Passport.store
        (.installed 0 (Function.update Passport.Book.blank 7
          (some (profile 150)))) := congrFun hc .passport
    generalize c .passport = d at hPassport hStore
    cases hPassport with
    | grown _ _ y hGrows =>
        have hRead := congrArg (Passport.getPassport · 7) hStore
        obtain ⟨q, hq, hRecord⟩ := Option.map_eq_some_iff.mp hRead
        have hDate : 200 ≤ q.createdAt := (hGrows.each 7).2 rfl q hq
        have hSame : q.createdAt = 150 :=
          congrArg PassportRecord.createdAt hRecord
        rw [hSame] at hDate
        exact absurd hDate (by decide)

end System

end ForgePass.Contracts
