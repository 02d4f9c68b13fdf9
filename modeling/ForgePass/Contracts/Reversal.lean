import ForgePass.Contracts.Coalition
import ForgePass.Contracts.Observation
import ForgePass.Verified.Reversal

/-!
# What can be taken back

Of all that requests do, little can be undone by later requests: a CID and a
flag can be set back, and a full window of scores can be replaced by the one it
was, score after score.  Everything else is for good: who administrates a
contract, that a passport was given and when, every archive, every issued
credential id, every removal, every badge.  A coalition can take back what it
could have done, within these limits.
-/

namespace ForgePass.Contracts

open ForgePass.Verified
open ForgePass.Verified.Machine

namespace Passport

variable {A : Type} [DecidableEq A]

omit [DecidableEq A] in
theorem store_injective : Function.Injective (store (A := A)) := by
  intro c c' h
  exact store_eq_of_reads (congrArg adminOf h) fun w => congrArg (getPassport · w) h

/-- A change of a passport that is there before and after. -/
def Revised (admin owner : Prop) (x y : Option Profile) : Prop :=
  Permitted admin owner x y ∧ x.isSome = y.isSome

theorem permitted_both_ways_iff {admin owner : Prop} {x y : Option Profile} :
    BothWays (Permitted admin owner) x y ↔ Revised admin owner x y := by
  cases x with
  | none =>
      cases y with
      | none => simp [BothWays, Revised, Permitted]
      | some q => simp [BothWays, Revised, Permitted]
  | some p =>
      cases y with
      | none => simp [BothWays, Revised, Permitted]
      | some q =>
          constructor
          · exact fun h => ⟨h.1, rfl⟩
          · rintro ⟨⟨hDate, hCid, hFlag⟩, -⟩
            exact ⟨⟨hDate, hCid, hFlag⟩, hDate.symm, hCid.imp_left Eq.symm,
              hFlag.imp_left Eq.symm⟩

end Passport

namespace TrustScore

variable {A : Type} [DecidableEq A]

omit [DecidableEq A] in
theorem store_injective : Function.Injective (store (A := A)) := by
  intro c c' h
  exact store_eq_of_reads (congrArg adminOf h)
    fun w => congrArg (getScoreHistory · w) h

/-- The same window, or a full one for a full one. -/
def Window.Revised (x y : Window) : Prop :=
  x = y ∨ (x.scores.length = 50 ∧ y.scores.length = 50)

theorem slides_both_ways_iff {x y : Window} :
    BothWays Window.Slides x y ↔ x.Revised y := by
  constructor
  · rintro ⟨hxy, hyx⟩
    have hx := x.capped
    have hy := y.capped
    rcases hxy with hPrefix | hFull
    · left
      apply Window.ext
      apply hPrefix.eq_of_length
      rcases hyx with hBack | hFull
      · exact Nat.le_antisymm hPrefix.length_le hBack.length_le
      · have hLe := hPrefix.length_le
        omega
    · rcases hyx with hBack | hFull'
      · have hLe := hBack.length_le
        exact .inl (Window.ext (hBack.eq_of_length (by omega)).symm)
      · exact .inr ⟨hFull', hFull⟩
  · rintro (rfl | ⟨hx, hy⟩)
    · exact ⟨.refl x, .refl x⟩
    · exact ⟨.inr hy, .inr hx⟩

end TrustScore

namespace SoulboundNft

variable {A M : Type} [DecidableEq A] [DecidableEq M]

theorem store_injective : Function.Injective (store (A := A) (M := M)) := by
  intro c c' h
  exact store_eq_of_reads (congrArg adminOf h) fun id => congrArg (getBadge · id) h

omit [DecidableEq A] [DecidableEq M] in
theorem extends_both_ways_iff {x y : Book A M} :
    BothWays Book.Extends x y ↔ x = y := by
  constructor
  · rintro ⟨hxy, hyx⟩
    exact Book.ext (hxy.eq_of_length
      (Nat.le_antisymm hxy.length_le hyx.length_le))
  · rintro rfl
    exact ⟨List.prefix_refl _, List.prefix_refl _⟩

end SoulboundNft

namespace CredentialStore

variable {A S : Type}

theorem record_injective (w : A) :
    Function.Injective fun e : Entry S => e.record w := by
  intro e e' h
  cases e
  cases e'
  cases h
  rfl

/-- An account is what is stored of it. -/
theorem Account.eq_of_entries {x y : Account S} (w : A)
    (hCounter : x.counterEntry = y.counterEntry)
    (hCredentials : x.credentialsEntry w = y.credentialsEntry w)
    (hSlots : ∀ i, x.slotEntry i = y.slotEntry i) : x = y := by
  apply Account.ext
  · apply List.ext_getElem?
    intro n
    by_cases hn : n < UInt32.size
    · have hSlot := hSlots (.ofNat n)
      unfold Account.slotEntry at hSlot
      rw [UInt32.toNat_ofNat_of_lt' hn] at hSlot
      exact hSlot
    · have hx := x.archivesFit
      have hy := y.archivesFit
      rw [List.getElem?_eq_none (by omega), List.getElem?_eq_none (by omega)]
  · have hIssued := congrArg (Option.getD · 0) hCounter
    simp only [Account.counterEntry_getD] at hIssued
    rw [← x.issued_toNat, ← y.issued_toNat, hIssued]
  · have hLive := congrArg (Option.getD · []) hCredentials
    simp only [Account.credentialsEntry_getD] at hLive
    exact List.map_injective_iff.mpr (record_injective w) hLive
  · have hOpened := congrArg Option.isSome hCredentials
    unfold Account.credentialsEntry at hOpened
    cases hx : x.opened <;> cases hy : y.opened <;> simp [hx, hy] at hOpened ⊢

theorem store_injective : Function.Injective (store (A := A) (S := S)) := by
  intro c c' h
  have hAdmin := congrArg adminOf h
  cases c with
  | fresh =>
      cases c' with
      | fresh => rfl
      | installed a' book' => cases hAdmin
  | installed a book =>
      cases c' with
      | fresh => cases hAdmin
      | installed a' book' =>
          obtain rfl : a = a' := Option.some.inj hAdmin
          have hBook : book = book' := by
            funext w
            apply Account.eq_of_entries w
            · exact congrArg (fun s => s.instanceTier.get (.credentialCounter w)) h
            · exact congrArg (fun s => s.persistentTier.get (.credentials w)) h
            · exact fun i =>
                congrArg (fun s => s.persistentTier.get (.archiveRecord w i)) h
          rw [hBook]

/-- Growth of an account is an order: what was dropped or issued stays so. -/
theorem grows_both_ways_iff {x y : Account S} :
    BothWays Account.Grows x y ↔ x = y := by
  constructor
  · rintro ⟨hxy, hyx⟩
    have hIssued := Nat.le_antisymm hxy.issued hyx.issued
    have hKept : ∀ {x y : Account S}, x.Grows y → y.issued ≤ x.issued →
        y.live.Sublist x.live := by
      intro x y h hLe
      obtain ⟨sids, hLive⟩ := h.live_filter
      have hAll : y.live.filter (fun e => e.number ≤ x.issued) = y.live := by
        rw [List.filter_eq_self]
        intro e he
        simpa using (y.range e he).trans hLe
      rw [← hAll, hLive]
      exact dropBy_sublist _ _ _
    apply Account.ext
    · exact hxy.archives.eq_of_length
        (Nat.le_antisymm hxy.archives.length_le hyx.archives.length_le)
    · exact hIssued
    · exact (hKept hyx hxy.issued).antisymm (hKept hxy hyx.issued)
    · exact Bool.eq_iff_iff.mpr ⟨hxy.opened, hyx.opened⟩
  · rintro rfl
    exact ⟨.refl x, .refl x⟩

theorem book_grows_both_ways_iff {book book' : Book A S} :
    BothWays Book.Grows book book' ↔ book = book' := by
  have hPointwise : BothWays Book.Grows book book' ↔
      Pointwise (fun _ => BothWays Account.Grows) book book' :=
    Pointwise.both_ways_iff
  rw [hPointwise]
  constructor
  · intro h
    funext w
    exact grows_both_ways_iff.mp (h.each w)
  · rintro rfl
    exact .refl (fun _ x => ⟨.refl x, .refl x⟩) book

end CredentialStore

namespace System

variable {A S M : Type}

/-- The moves of a book that a coalition can make and take back. -/
def RevisableBy (P : Set A) : (k : Contract) → Deployment A (k.Book A S M) →
    Deployment A (k.Book A S M) → Prop
  | .passport => Deployment.Alike fun a =>
      Pointwise fun w => Passport.Revised (a ∈ P) (w ∈ P)
  | .credentialStore => Eq
  | .trustScore => Deployment.Alike
      (AllOrNothing P (Pointwise fun _ => TrustScore.Window.Revised))
  | .soulboundNft => Eq

variable [DecidableEq A] [DecidableEq M]

theorem storeOf_injective : ∀ k : Contract,
    Function.Injective (storeOf (A := A) (S := S) (M := M) k)
  | .passport => Passport.store_injective
  | .credentialStore => CredentialStore.store_injective
  | .trustScore => TrustScore.store_injective
  | .soulboundNft => SoulboundNft.store_injective

theorem stored_injective :
    Function.Injective (stored (A := A) (S := S) (M := M)) := by
  intro b c h
  funext k
  exact storeOf_injective k (congrFun h k)

omit [DecidableEq A] [DecidableEq M] in
/-- Contents that only stay the same. -/
theorem alike_of_eq_iff {X : Type} {P : Set A} {Grows : X → X → Prop}
    {start : X} (hEq : ∀ x y, BothWays Grows x y ↔ x = y)
    {b c : Deployment A X} :
    BothWays (Deployment.Evolves start (AllOrNothing P Grows)) b c ↔ b = c := by
  rw [Deployment.both_ways_iff, ← Deployment.alike_eq_iff]
  refine Deployment.alike_congr fun a x y => ?_
  rw [allOrNothing_both_ways_iff (hEq x y)]
  exact ⟨fun h => h.elim And.right id, .inr⟩

omit [DecidableEq A] [DecidableEq M] in
theorem moves_both_ways_iff (P : Set A) : ∀ (k : Contract)
    (b c : Deployment A (k.Book A S M)),
    BothWays (MovesBy P k) b c ↔ RevisableBy P k b c
  | .passport => fun b c => by
      refine Deployment.both_ways_iff.trans (Deployment.alike_congr ?_)
      intro a book book'
      exact Pointwise.both_ways_iff.trans
        (pointwise_congr fun w x y => Passport.permitted_both_ways_iff)
  | .credentialStore => fun b c =>
      alike_of_eq_iff fun x y => CredentialStore.book_grows_both_ways_iff
  | .trustScore => fun b c => by
      refine Deployment.both_ways_iff.trans (Deployment.alike_congr ?_)
      intro a book book'
      apply allOrNothing_both_ways_iff
      exact Pointwise.both_ways_iff.trans
        (pointwise_congr fun w x y => TrustScore.slides_both_ways_iff)
  | .soulboundNft => fun b c =>
      alike_of_eq_iff fun x y => SoulboundNft.extends_both_ways_iff

variable [DecidableEq S] [Inhabited S]

/-- **What can be taken back.**  While the counters have room, the requests of a
coalition lead from books to others and back again exactly if these differ in
revisable moves. -/
theorem revisable_iff (P : Set A) (b c : Books A S M) :
    BothWays (host.Follows fun s i =>
        RoomIn i.1 (s i.1) i.2 ∧ i.2.Within P) (stored b) (stored c) ↔
      ∀ k, RevisableBy P k (b k) (c k) := by
  rw [(booksEncoding P).both_ways_iff stored_injective,
    Pointwise.both_ways_iff]
  have hFinite : {k | b k ≠ c k}.Finite := Set.toFinite _
  constructor
  · exact fun h k => (moves_both_ways_iff P k _ _).mp (h.each k)
  · exact fun h => ⟨hFinite, fun k => (moves_both_ways_iff P k _ _).mpr (h k)⟩

end System

end ForgePass.Contracts
