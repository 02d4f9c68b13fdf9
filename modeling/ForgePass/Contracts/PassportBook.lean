import ForgePass.Contracts.PassportSpec
import ForgePass.Verified.Clock
import ForgePass.Verified.Coalition

/-!
# The reachable passport stores

A passport says what its wallet published, since when, and whether the
administrator flagged it.  The contract is for keeping such a book, one
profile for each wallet that was given one.  `store` writes a book into the
keys of the contract; every storage a run reaches is written so, and every
book can be reached.  What a run can never do is take a profile back or change
its date.

The date of a new profile is the time of its ledger.  Ledgers close one after
the other, so a run that begins at `clock` gives no earlier dates; any date from
then on it can give.
-/

namespace ForgePass.Contracts.Passport

open ForgePass.Verified
open ForgePass.Verified.Machine

variable {A : Type}

/-- What a passport says of its wallet: where its metadata lies, when it was
given, and whether it is flagged. -/
structure Profile where
  ipfsCid : HostString
  createdAt : UInt64
  sybilFlagged : Bool
  deriving DecidableEq

/-- The stored form of a profile. -/
def Profile.record (p : Profile) (w : A) : PassportRecord A :=
  ⟨w, p.ipfsCid, p.createdAt, p.sybilFlagged⟩

/-- The profiles given out, by wallet. Wallets without a passport have none. -/
abbrev Book (A : Type) := A → Option Profile

/-- The book of a contract that gave out no passport. -/
def Book.blank : Book A := fun _ => none

/-- The storage in which a book is written. -/
def store : Deployment A (Book A) → Store A
  | .fresh => Ledger.empty
  | .installed a book =>
      { instanceTier := fun
          | .admin => some a
          | .passport _ => none
        persistentTier := fun
          | .admin => none
          | .passport w => (book w).map (Profile.record · w) }

@[simp] theorem adminOf_store (a : A) (book : Book A) :
    adminOf (store (.installed a book)) = some a := rfl

@[simp] theorem getPassport_store (a : A) (book : Book A) (w : A) :
    getPassport (store (.installed a book)) w =
      (book w).map (Profile.record · w) := rfl

theorem record_injective (w : A) :
    Function.Injective (Profile.record · w) := by
  intro p q h
  cases p
  cases q
  cases h
  rfl

/-! ## Growth of a book -/

/-- A profile once given stays, with the date it was created at. CID and flag
may be rewritten as often as one likes. -/
def Keeps (x y : Option Profile) : Prop :=
  ∀ p ∈ x, ∃ q ∈ y, q.createdAt = p.createdAt

/-- How a profile can change if the administrator, the owner, or both, join
in. -/
def Permitted (admin owner : Prop) : Option Profile → Option Profile → Prop
  | none, none => True
  | none, some _ => admin
  | some _, none => False
  | some p, some q => q.createdAt = p.createdAt ∧
      (q.ipfsCid = p.ipfsCid ∨ owner) ∧ (q.sybilFlagged = p.sybilFlagged ∨ admin)

section Permitted

variable {admin owner : Prop}

theorem Permitted.refl (x : Option Profile) : Permitted admin owner x x := by
  cases x with
  | none => trivial
  | some p => exact ⟨rfl, .inl rfl, .inl rfl⟩

theorem Permitted.trans (x y z : Option Profile) (hxy : Permitted admin owner x y)
    (hyz : Permitted admin owner y z) : Permitted admin owner x z := by
  cases x with
  | none =>
      cases y with
      | none => exact hyz
      | some q =>
          cases z with
          | none => trivial
          | some r => exact hxy
  | some p =>
      cases y with
      | none => exact hxy.elim
      | some q =>
          cases z with
          | none => exact hyz.elim
          | some r =>
              obtain ⟨hDate, hCid, hFlag⟩ := hxy
              obtain ⟨hDate', hCid', hFlag'⟩ := hyz
              refine ⟨hDate'.trans hDate, ?_, ?_⟩
              · rcases hCid' with hCid' | hOwner
                · exact hCid.imp_left hCid'.trans
                · exact .inr hOwner
              · rcases hFlag' with hFlag' | hAdmin
                · exact hFlag.imp_left hFlag'.trans
                · exact .inr hAdmin

/-- Together they can do all that can be done. -/
theorem permitted_iff_keeps (hAdmin : admin) (hOwner : owner)
    (x y : Option Profile) : Permitted admin owner x y ↔ Keeps x y := by
  cases x with
  | none =>
      cases y with
      | none => simp [Permitted, Keeps]
      | some q => simp [Permitted, Keeps, hAdmin]
  | some p =>
      cases y with
      | none => simp [Permitted, Keeps]
      | some q => simp [Permitted, Keeps, hAdmin, hOwner]

end Permitted

/-! ## Dates -/

/-- A profile that is new was not created before `clock`. The date comes from
the ledger that executes the creation, so nobody can choose it freely. -/
def Dated (clock : UInt64) (x y : Option Profile) : Prop :=
  x = none → ∀ p ∈ y, clock ≤ p.createdAt

theorem Dated.refl (clock : UInt64) (x : Option Profile) : Dated clock x x := by
  rintro rfl p hp
  cases hp

/-- A profile that was there already is not new. -/
theorem dated_some (clock : UInt64) (p : Profile) (y : Option Profile) :
    Dated clock (some p) y := by
  intro hNew
  cases hNew

/-- Dates are kept, so only the first step needs a look at them. -/
theorem Dated.trans {clock : UInt64} {x y z : Option Profile}
    (hxy : Dated clock x y) (hyz : Dated clock y z) (hKeeps : Keeps y z) :
    Dated clock x z := by
  rintro hNew p hp
  cases hOld : y with
  | none => exact hyz hOld p hp
  | some q =>
      obtain ⟨r, hr, hDate⟩ := hKeeps q hOld
      obtain rfl : p = r := Option.mem_unique hp hr
      rw [hDate]
      exact hxy hNew q hOld

/-- What is permitted to everybody is permitted to each. -/
theorem Permitted.keeps {admin owner : Prop} {x y : Option Profile}
    (h : Permitted admin owner x y) : Keeps x y := by
  intro p hp
  obtain rfl : x = some p := hp
  cases y with
  | none => exact h.elim
  | some q => exact ⟨q, rfl, h.1⟩

/-- How a profile can change from the time `clock` on, if `admin` and `owner`
say who of the two takes part: as permitted, and with a new profile dated
`clock` or later. -/
def PermittedSince (clock : UInt64) (admin owner : Prop)
    (x y : Option Profile) : Prop :=
  Permitted admin owner x y ∧ Dated clock x y

section PermittedSince

variable {clock : UInt64} {admin owner : Prop}

theorem PermittedSince.refl (x : Option Profile) :
    PermittedSince clock admin owner x x :=
  ⟨Permitted.refl x, Dated.refl clock x⟩

theorem PermittedSince.trans (x y z : Option Profile)
    (hxy : PermittedSince clock admin owner x y)
    (hyz : PermittedSince clock admin owner y z) :
    PermittedSince clock admin owner x z :=
  ⟨Permitted.trans x y z hxy.1 hyz.1, hxy.2.trans hyz.2 hyz.1.keeps⟩

/-- Since the beginning of time all dates are possible. -/
theorem permittedSince_zero : PermittedSince 0 = Permitted := by
  funext admin owner x y
  apply propext
  constructor
  · exact fun h => h.1
  · exact fun h => ⟨h, fun _ p _ => UInt64.zero_le⟩

end PermittedSince

/-- Finitely many profiles moved, those that are new at the time `clock` or
later. -/
def Book.GrowsSince (clock : UInt64) (book book' : Book A) : Prop :=
  Pointwise (fun _ x y => Keeps x y ∧ Dated clock x y) book book'

/-- The same, by the hands of a coalition `P`, where `a` is the administrator:
each wallet in `P` counts as the owner of its profile. -/
def Book.GrowsBySince (P : Set A) (clock : UInt64) (a : A)
    (book book' : Book A) : Prop :=
  Pointwise (fun w => PermittedSince clock (a ∈ P) (w ∈ P)) book book'

/-- The same at any time. -/
def Book.GrowsBy (P : Set A) (a : A) (book book' : Book A) : Prop :=
  Pointwise (fun w => Permitted (a ∈ P) (w ∈ P)) book book'

theorem Book.growsBySince_univ (clock : UInt64) :
    Book.GrowsBySince (Set.univ : Set A) clock =
      fun _ => Book.GrowsSince clock := by
  funext a book book'
  apply propext
  constructor
  · intro h
    exact h.mono fun w x y hMove =>
      ⟨(permitted_iff_keeps trivial trivial x y).mp hMove.1, hMove.2⟩
  · intro h
    exact h.mono fun w x y hMove =>
      ⟨(permitted_iff_keeps trivial trivial x y).mpr hMove.1, hMove.2⟩

theorem Book.growsBySince_zero (P : Set A) :
    Book.GrowsBySince P 0 = Book.GrowsBy P := by
  unfold Book.GrowsBySince Book.GrowsBy
  rw [permittedSince_zero]

variable [DecidableEq A]

theorem setAdmin_empty (a : A) :
    (Ledger.empty : Store A).setInstance .admin a =
      store (.installed a Book.blank) := by
  apply Ledger.ext
  · intro k
    cases k with
    | admin => rfl
    | passport w => rfl
  · intro k
    cases k with
    | admin => rfl
    | passport w => rfl

/-- Writing a passport writes its profile into the book. -/
theorem putPassport_store (a : A) (book : Book A) (w : A) (p : Profile) :
    putPassport (store (.installed a book)) w (p.record w) =
      store (.installed a (Function.update book w (some p))) := by
  apply Ledger.ext
  · intro k
    cases k with
    | admin => rfl
    | passport v => rfl
  · intro k
    cases k with
    | admin => rfl
    | passport v =>
        show getPassport (putPassport _ w _) v = getPassport (store _) v
        rw [getPassport_putPassport, getPassport_store, getPassport_store]
        by_cases hv : v = w
        · subst hv
          rw [if_pos rfl, Function.update_self, Option.map_some]
        · rw [if_neg hv, Function.update_of_ne hv]

/-! ## Steps along the order -/

theorem step_fresh (i : Invocation A (Call A)) :
    (machine.step (store .fresh) i).2 = store .fresh ∨
      ∃ a, (machine.step (store .fresh) i).2 =
        store (.installed a Book.blank) := by
  have hStep := step_transition (store .fresh) i
  generalize (machine.step (store .fresh) i).1 = answer at hStep
  generalize (machine.step (store .fresh) i).2 = s' at hStep
  cases hStep with
  | refused i e => exact .inl rfl
  | initialized env a hAdmin => exact .inr ⟨a, setAdmin_empty a⟩
  | created env w cid hSigned hNone => exact absurd hSigned (not_signedBy_none _)
  | updated env w cid r hOwner hSome => cases hSome
  | flagged env w flag r hSigned hSome => cases hSome

theorem step_installed {P : Set A} {clock : UInt64} (a : A) (book : Book A)
    {i : Invocation A (Call A)} (hWithin : i.Within P)
    (hTime : clock.toNat ≤ i.time) :
    ∃ book', book.GrowsBySince P clock a book' ∧
      (machine.step (store (.installed a book)) i).2 =
        store (.installed a book') := by
  have hStep := step_transition (store (.installed a book)) i
  generalize (machine.step (store (.installed a book)) i).1 = answer at hStep
  generalize (machine.step (store (.installed a book)) i).2 = s' at hStep
  cases hStep with
  | refused i e => exact ⟨book, .refl (fun _ => PermittedSince.refl) book, rfl⟩
  | initialized env b hAdmin => cases hAdmin
  | created env w cid hSigned hNone =>
      have hBlank : book w = none := Option.map_eq_none_iff.mp hNone
      have hMember : a ∈ P := hWithin a ((signedBy_some a env).mp hSigned)
      refine ⟨_, .update (fun _ => PermittedSince.refl) ?_,
        putPassport_store a book w ⟨cid, env.timestamp, false⟩⟩
      rw [hBlank]
      refine ⟨hMember, fun _ p hp => ?_⟩
      obtain rfl : _ = p := Option.some.inj hp
      exact hTime
  | updated env w cid r hOwner hSome =>
      obtain ⟨p, hp, rfl⟩ := Option.map_eq_some_iff.mp hSome
      refine ⟨_, .update (fun _ => PermittedSince.refl) ?_,
        putPassport_store a book w { p with ipfsCid := cid }⟩
      rw [hp]
      exact ⟨⟨rfl, .inr (hWithin w hOwner), .inl rfl⟩, dated_some _ p _⟩
  | flagged env w flag r hSigned hSome =>
      obtain ⟨p, hp, rfl⟩ := Option.map_eq_some_iff.mp hSome
      have hMember : a ∈ P := hWithin a ((signedBy_some a env).mp hSigned)
      refine ⟨_, .update (fun _ => PermittedSince.refl) ?_,
        putPassport_store a book w { p with sybilFlagged := flag }⟩
      rw [hp]
      exact ⟨⟨rfl, .inl rfl, .inr hMember⟩, dated_some _ p _⟩

/-! ## Moves of one profile -/

/-- Calls that a coalition can send. -/
abbrev SentBy (P : Set A) (_ : Store A) (i : Invocation A (Call A)) : Prop :=
  i.Within P

/-- Calls that a coalition can send at a time: into the ledger that closes at
`now`. -/
abbrev SentAt (P : Set A) (now : UInt64) (s : Store A)
    (i : Invocation A (Call A)) : Prop :=
  SentBy P s i ∧ i.time = now.toNat

section Moves

variable {P : Set A} {a : A} (now : UInt64) (book : Book A)

theorem follows_create (ha : a ∈ P) (w : A) (cid : HostString)
    (hBlank : book w = none) :
    machine.Follows (SentAt P now) (store (.installed a book))
      (store (.installed a
        (Function.update book w (some ⟨cid, now, false⟩)))) := by
  apply Follows.step (i := ⟨⟨{a}, now⟩, .createPassport w cid⟩)
  · exact ⟨Invocation.within_singleton ha _ _, rfl⟩
  · show (createPassport w cid _ _).2 = _
    rw [createPassport_run, if_pos (by simp), getPassport_store, hBlank]
    exact putPassport_store a book w ⟨cid, now, false⟩

theorem follows_update {w : A} (hw : w ∈ P) (p : Profile) (cid : HostString)
    (hGiven : book w = some p) :
    machine.Follows (SentAt P now) (store (.installed a book))
      (store (.installed a
        (Function.update book w (some { p with ipfsCid := cid })))) := by
  apply Follows.step (i := ⟨⟨{w}, now⟩, .updateMetadataCid w cid⟩)
  · exact ⟨Invocation.within_singleton hw _ _, rfl⟩
  · show (updateMetadataCid w cid _ _).2 = _
    rw [updateMetadataCid_run, if_pos (by simp), getPassport_store, hGiven]
    exact putPassport_store a book w { p with ipfsCid := cid }

theorem follows_flag (ha : a ∈ P) (w : A) (p : Profile) (flag : Bool)
    (hGiven : book w = some p) :
    machine.Follows (SentAt P now) (store (.installed a book))
      (store (.installed a
        (Function.update book w (some { p with sybilFlagged := flag })))) := by
  apply Follows.step (i := ⟨⟨{a}, now⟩, .setSybilFlag w flag⟩)
  · exact ⟨Invocation.within_singleton ha _ _, rfl⟩
  · show (setSybilFlag w flag _ _).2 = _
    rw [setSybilFlag_run, if_pos (by simp), getPassport_store, hGiven]
    exact putPassport_store a book w { p with sybilFlagged := flag }

/-- A CID that differs is set by the owner. -/
theorem follows_cid (w : A) (p : Profile) (cid : HostString)
    (hGiven : book w = some p) (hMay : cid = p.ipfsCid ∨ w ∈ P) :
    machine.Follows (SentAt P now) (store (.installed a book))
      (store (.installed a
        (Function.update book w (some { p with ipfsCid := cid })))) := by
  rcases hMay with rfl | hw
  · rw [← hGiven, Function.update_eq_self]
    exact .refl _
  · exact follows_update now book hw p cid hGiven

/-- A flag that differs is set by the administrator. -/
theorem follows_judged (w : A) (p : Profile) (flag : Bool)
    (hGiven : book w = some p) (hMay : flag = p.sybilFlagged ∨ a ∈ P) :
    machine.Follows (SentAt P now) (store (.installed a book))
      (store (.installed a
        (Function.update book w (some { p with sybilFlagged := flag })))) := by
  rcases hMay with rfl | ha
  · rw [← hGiven, Function.update_eq_self]
    exact .refl _
  · exact follows_flag now book ha w p flag hGiven

/-- What is permitted to the members can be done by them, at the date of the
profile if that is new and else at any time. -/
theorem follows_profile (w : A) (x : Option Profile)
    (hMay : Permitted (a ∈ P) (w ∈ P) (book w) x)
    (hDate : book w = none → ∀ q ∈ x, q.createdAt = now) :
    machine.Follows (SentAt P now) (store (.installed a book))
      (store (.installed a (Function.update book w x))) := by
  cases hGiven : book w with
  | none =>
      cases x with
      | none =>
          rw [← hGiven, Function.update_eq_self]
          exact .refl _
      | some q =>
          rw [hGiven] at hMay
          have hCreate := follows_create now book hMay w q.ipfsCid hGiven
          have hFlag := follows_flag now _ hMay w ⟨q.ipfsCid, now, false⟩
            q.sybilFlagged (Function.update_self w _ book)
          have hSame : (⟨q.ipfsCid, now, q.sybilFlagged⟩ : Profile) = q := by
            rw [← hDate hGiven q rfl]
          rw [Function.update_idem, hSame] at hFlag
          exact hCreate.trans hFlag
  | some p =>
      rw [hGiven] at hMay
      cases x with
      | none => exact hMay.elim
      | some q =>
          obtain ⟨hKept, hCid, hFlag⟩ := hMay
          have hUpdate := follows_cid (a := a) now book w p q.ipfsCid hGiven hCid
          have hJudged := follows_judged now _ w { p with ipfsCid := q.ipfsCid }
            q.sybilFlagged (Function.update_self w _ book) hFlag
          rw [Function.update_idem] at hJudged
          have hSame : (⟨q.ipfsCid, p.createdAt, q.sybilFlagged⟩ : Profile) =
              q := by rw [← hKept]
          rw [hSame] at hJudged
          exact hUpdate.trans hJudged

end Moves

/-! ## Moves of the book -/

section Clock

variable {P : Set A} {clock : UInt64}

/-- The new profiles are given in the order of their dates: always the one that
is due first, so that the clock never runs back. -/
theorem followsOn_book {a : A} {book book' : Book A}
    (hGrows : book.GrowsBySince P clock a book') :
    machine.FollowsOn Invocation.time (SentBy P) clock.toNat
      (store (.installed a book)) (store (.installed a book')) := by
  apply Pointwise.induction_due (P := fun c f g =>
    machine.FollowsOn Invocation.time (SentBy P) c (store (.installed a f))
      (store (.installed a g)))
    (R := fun w t x y => ∃ now : UInt64, now.toNat = t ∧
      Permitted (a ∈ P) (w ∈ P) x y ∧ (x = none → ∀ q ∈ y, q.createdAt = now))
    _ _ hGrows.finite
  · intro w
    obtain ⟨hMay, hDated⟩ := hGrows.each w
    cases hOld : book w with
    | none =>
        cases hNew : book' w with
        | none =>
            refine ⟨_, Nat.le_refl _, clock, rfl, trivial, ?_⟩
            rintro - q hq
            cases hq
        | some q =>
            rw [hOld, hNew] at hMay
            refine ⟨_, hDated hOld q hNew, q.createdAt, rfl, hMay, ?_⟩
            rintro - r hr
            rw [Option.some.inj hr]
    | some p =>
        rw [hOld] at hMay
        refine ⟨_, Nat.le_refl _, clock, rfl, hMay, ?_⟩
        intro hEq
        cases hEq
  · exact fun c f => .refl c _
  · rintro c t f g w x hNow ⟨now, rfl, hMay, hDate⟩ hRest
    exact .after hNow (follows_profile now f w x hMay hDate) hRest

theorem follows_install (P : Set A) (now : UInt64) (a : A) :
    machine.Follows (SentAt P now) (store .fresh)
      (store (.installed a Book.blank)) :=
  Follows.step (i := ⟨⟨∅, now⟩, .initializeAdmin a⟩)
    ⟨Invocation.within_empty P _ _, rfl⟩ (setAdmin_empty a)

/-- Whatever a coalition may bring about under a clock, it can. -/
theorem followsOn_evolves {b c : Deployment A (Book A)}
    (h : b.Evolves Book.blank (Book.GrowsBySince P clock) c) :
    machine.FollowsOn Invocation.time (SentBy P) clock.toNat (store b)
      (store c) := by
  cases h with
  | waiting => exact .refl _ _
  | bootstrapped a book hGrows =>
      exact .after (Nat.le_refl _) (follows_install P clock a)
        (followsOn_book hGrows)
  | grown a book book' hGrows => exact followsOn_book hGrows

/-- The books that a coalition writes with calls at the time `clock` or
later. -/
theorem bookEncodingSince (P : Set A) (clock : UInt64) :
    Encoding machine (fun s i => SentBy P s i ∧ clock.toNat ≤ i.time)
      (store (A := A))
      (Deployment.Evolves Book.blank (Book.GrowsBySince P clock)) := by
  apply Deployment.encoding
  · exact fun a => Pointwise.refl fun w => PermittedSince.refl
  · exact fun a x y z => Pointwise.trans fun w => PermittedSince.trans
  · exact fun i _ => step_fresh i
  · exact fun a book i hSent => step_installed a book hSent.1 hSent.2
  · intro a
    exact (FollowsOn.of_follows (Nat.le_refl _)
      (follows_install P clock a)).follows
  · exact fun a book book' hGrows => (followsOn_book hGrows).follows

end Clock

/-- The books that a coalition writes at any time. -/
theorem bookEncoding (P : Set A) : Encoding machine (SentBy P) (store (A := A))
    (Deployment.Evolves Book.blank (Book.GrowsBy P)) := by
  have hBook := bookEncodingSince P 0
  have hAnyTime : (fun (s : Store A) (i : Invocation A (Call A)) =>
      SentBy P s i ∧ (0 : UInt64).toNat ≤ i.time) = SentBy P := by
    funext s i
    exact propext (and_iff_left (Nat.zero_le _))
  rw [hAnyTime, Book.growsBySince_zero] at hBook
  exact hBook

omit [DecidableEq A] in
theorem sentBy_univ : SentBy (Set.univ : Set A) = Any := by
  funext s i
  exact propext ⟨fun _ => trivial, fun _ => i.within_univ⟩

/-- Every run leaves a written book. -/
theorem run_store (is : List (Invocation A (Call A))) :
    ∃ c, machine.run is = store c := by
  have hEach : machine.EachFrom (SentBy Set.univ) (store .fresh) is := by
    rw [sentBy_univ]
    exact eachFrom_any _ is
  obtain ⟨c, -, hc⟩ := (bookEncoding Set.univ).run (b := .fresh) hEach
  exact ⟨c, hc⟩

/-- **The evolution of passports.**  From a written book, calls that come in the
order of their ledgers, the first not before `clock`, lead exactly to those
storages that hold a book in which finitely many profiles moved, none was taken
back, none changed its date, and the new ones are not dated before `clock`. -/
theorem passports_follow_iff (clock : UInt64) (b : Deployment A (Book A))
    (t : Store A) :
    (∃ is, Ticks Invocation.time clock.toNat is ∧
        machine.runFrom (store b) is = t) ↔
      ∃ c, b.Evolves Book.blank (fun _ => Book.GrowsSince clock) c ∧
        store c = t := by
  rw [← Book.growsBySince_univ, ← (bookEncodingSince Set.univ clock).followsOn_iff
    fun b c => followsOn_evolves, sentBy_univ, followsOn_any_iff]

end ForgePass.Contracts.Passport
