import Mathlib.Data.List.Basic
import Mathlib.Data.List.Infix

/-!
# Deterministic machines, their runs and their histories

A machine answers every input and moves to a next state.  A *run* is the state
after a list of inputs, a *history* the list of inputs paired with the answers
they got.  Both grow at the end, so every fact about a run is proved by adding
one last input: `run_concat` and `history_concat` are the only unfolding
rules, and the induction principles below package them once.

`Along` restricts a run to those whose reached states all satisfy a side
condition, such as "no counter is at its maximum"; `Each` to those whose
inputs satisfy a condition in the state they meet.

A machine whose inputs are expanded to lists of inputs of another
(`grouped`) runs through states of the other (`grouped_run`).
-/

namespace ForgePass.Verified

/-- States `σ`, inputs `ι`, answers `ρ`. Every input has one outcome in every
state; a refusal is an answer like any other. -/
structure Machine (σ ι ρ : Type) where
  init : σ
  step : σ → ι → ρ × σ

namespace Machine

variable {σ ι ρ : Type} (m : Machine σ ι ρ)

/-- The state after the inputs, begun in a given one. -/
def runFrom : σ → List ι → σ
  | s, [] => s
  | s, c :: cs => runFrom (m.step s c).2 cs

/-- The inputs with the answers they get, begun in a given state. -/
def historyFrom : σ → List ι → List (ι × ρ)
  | _, [] => []
  | s, c :: cs => (c, (m.step s c).1) :: historyFrom (m.step s c).2 cs

/-- The state reached by the inputs `cs`. -/
def run (cs : List ι) : σ := m.runFrom m.init cs

/-- The inputs `cs` with their answers. -/
def history (cs : List ι) : List (ι × ρ) := m.historyFrom m.init cs

/-! ## Growing a run at its end -/

theorem runFrom_append (s : σ) (cs ds : List ι) :
    m.runFrom s (cs ++ ds) = m.runFrom (m.runFrom s cs) ds := by
  induction cs generalizing s with
  | nil => rfl
  | cons c cs ih => exact ih (m.step s c).2

theorem historyFrom_append (s : σ) (cs ds : List ι) :
    m.historyFrom s (cs ++ ds) =
      m.historyFrom s cs ++ m.historyFrom (m.runFrom s cs) ds := by
  induction cs generalizing s with
  | nil => rfl
  | cons c cs ih =>
      show (c, (m.step s c).1) :: m.historyFrom (m.step s c).2 (cs ++ ds) = _
      rw [ih]
      rfl

@[simp] theorem run_nil : m.run [] = m.init := rfl

@[simp] theorem history_nil : m.history [] = [] := rfl

theorem run_append (cs ds : List ι) :
    m.run (cs ++ ds) = m.runFrom (m.run cs) ds :=
  m.runFrom_append m.init cs ds

theorem run_concat (cs : List ι) (c : ι) :
    m.run (cs ++ [c]) = (m.step (m.run cs) c).2 :=
  m.run_append cs [c]

theorem history_append (cs ds : List ι) :
    m.history (cs ++ ds) = m.history cs ++ m.historyFrom (m.run cs) ds :=
  m.historyFrom_append m.init cs ds

theorem history_concat (cs : List ι) (c : ι) :
    m.history (cs ++ [c]) =
      m.history cs ++ [(c, (m.step (m.run cs) c).1)] :=
  m.history_append cs [c]

/-! ## Runs through states that satisfy a side condition -/

/-- Every state the run reaches, the last one included, satisfies `P`. The
states a run reaches are those of its prefixes. -/
def Along (P : σ → Prop) (cs : List ι) : Prop :=
  ∀ p, p <+: cs → P (m.run p)

variable {m}

theorem Along.final {P : σ → Prop} {cs : List ι} (h : m.Along P cs) :
    P (m.run cs) := h cs (List.prefix_refl cs)

theorem Along.earlier {P : σ → Prop} {p cs : List ι} (h : m.Along P cs)
    (hp : p <+: cs) : m.Along P p := fun q hq => h q (hq.trans hp)

theorem Along.of_concat {P : σ → Prop} {cs : List ι} {c : ι}
    (h : m.Along P (cs ++ [c])) : m.Along P cs :=
  h.earlier (List.prefix_append cs [c])

/-- The states a run reaches are those after its first `n` calls. -/
theorem along_iff_take {P : σ → Prop} {cs : List ι} :
    m.Along P cs ↔ ∀ n, n < cs.length + 1 → P (m.run (cs.take n)) := by
  constructor
  · intro h n _
    exact h _ (List.take_prefix n cs)
  · intro h p hp
    have hTake : p = cs.take p.length := List.prefix_iff_eq_take.mp hp
    have hLen : p.length < cs.length + 1 := Nat.lt_succ_of_le hp.length_le
    rw [hTake]
    exact h _ hLen

instance {P : σ → Prop} [DecidablePred P] (cs : List ι) :
    Decidable (m.Along P cs) :=
  decidable_of_iff _ along_iff_take.symm

variable (m)

/-! ## Induction over runs -/

/-- An invariant of one step is an invariant of every run. The induction over
runs is made here, once. -/
theorem invariant {I : σ → Prop} (hInit : I m.init)
    (hStep : ∀ s c, I s → I (m.step s c).2) (cs : List ι) : I (m.run cs) := by
  induction cs using List.reverseRecOn with
  | nil => exact hInit
  | append_singleton cs c ih =>
      rw [m.run_concat]
      exact hStep _ c ih

/-- A relation between a reached state and the history that led to it, kept by
one step, holds after every run. -/
theorem history_invariant {R : σ → List (ι × ρ) → Prop} (hInit : R m.init [])
    (hStep : ∀ s h c, R s h →
      R (m.step s c).2 (h ++ [(c, (m.step s c).1)])) (cs : List ι) :
    R (m.run cs) (m.history cs) := by
  induction cs using List.reverseRecOn with
  | nil => exact hInit
  | append_singleton cs c ih =>
      rw [m.run_concat, m.history_concat]
      exact hStep _ _ c ih

/-- The same along runs whose states satisfy `P`: a step may use `P` on both
its ends. -/
theorem history_invariant_along {P : σ → Prop}
    {R : σ → List (ι × ρ) → Prop} (hInit : R m.init [])
    (hStep : ∀ s h c, P s → P (m.step s c).2 → R s h →
      R (m.step s c).2 (h ++ [(c, (m.step s c).1)]))
    {cs : List ι} (hAlong : m.Along P cs) : R (m.run cs) (m.history cs) := by
  induction cs using List.reverseRecOn with
  | nil => exact hInit
  | append_singleton cs c ih =>
      have hNext := hAlong.final
      rw [m.run_concat] at hNext
      rw [m.run_concat, m.history_concat]
      exact hStep _ _ c hAlong.of_concat.final hNext (ih hAlong.of_concat)

/-! ## Runs whose inputs satisfy a condition -/

/-- Every input satisfies `ok` in the state it meets on the way from a given
one. -/
def EachFrom (ok : σ → ι → Prop) : σ → List ι → Prop
  | _, [] => True
  | s, c :: cs => ok s c ∧ EachFrom ok (m.step s c).2 cs

/-- Every input of the run satisfies `ok` in the state it meets. -/
def Each (ok : σ → ι → Prop) (cs : List ι) : Prop := m.EachFrom ok m.init cs

instance decidableEachFrom {ok : σ → ι → Prop} [∀ s c, Decidable (ok s c)] :
    ∀ s cs, Decidable (m.EachFrom ok s cs)
  | _, [] => .isTrue trivial
  | s, c :: cs =>
      have : Decidable (m.EachFrom ok (m.step s c).2 cs) :=
        decidableEachFrom (m.step s c).2 cs
      inferInstanceAs (Decidable (ok s c ∧ m.EachFrom ok (m.step s c).2 cs))

instance {ok : σ → ι → Prop} [∀ s c, Decidable (ok s c)] (cs : List ι) :
    Decidable (m.Each ok cs) := m.decidableEachFrom m.init cs

theorem eachFrom_append {ok : σ → ι → Prop} (s : σ) (cs ds : List ι) :
    m.EachFrom ok s (cs ++ ds) ↔
      m.EachFrom ok s cs ∧ m.EachFrom ok (m.runFrom s cs) ds := by
  induction cs generalizing s with
  | nil => simp [EachFrom, runFrom]
  | cons c cs ih =>
      show ok s c ∧ m.EachFrom ok (m.step s c).2 (cs ++ ds) ↔ _
      rw [ih, ← and_assoc]
      rfl

@[simp] theorem each_nil {ok : σ → ι → Prop} : m.Each ok [] := trivial

theorem each_concat {ok : σ → ι → Prop} {cs : List ι} {c : ι} :
    m.Each ok (cs ++ [c]) ↔ m.Each ok cs ∧ ok (m.run cs) c := by
  unfold Each
  rw [eachFrom_append]
  simp [EachFrom, run]

/-- The inputs of `cs ++ [c]` are those of `cs` and `c`. -/
theorem concat_isPrefix_concat_iff {p cs : List ι} {c c' : ι} :
    p ++ [c'] <+: cs ++ [c] ↔ (p = cs ∧ c' = c) ∨ p ++ [c'] <+: cs := by
  rw [List.prefix_concat_iff, List.append_singleton_inj]

theorem each_iff {ok : σ → ι → Prop} {cs : List ι} :
    m.Each ok cs ↔ ∀ p c, p ++ [c] <+: cs → ok (m.run p) c := by
  induction cs using List.reverseRecOn with
  | nil => simp
  | append_singleton cs c ih =>
      rw [m.each_concat, ih]
      constructor
      · rintro ⟨hAll, hLast⟩ p c' hp
        rcases concat_isPrefix_concat_iff.mp hp with ⟨rfl, rfl⟩ | hp
        · exact hLast
        · exact hAll p c' hp
      · intro h
        exact ⟨fun p c' hp => h p c' (concat_isPrefix_concat_iff.mpr (.inr hp)),
          h cs c (List.prefix_refl _)⟩

variable {m}

theorem Each.earlier {ok : σ → ι → Prop} {p cs : List ι} (h : m.Each ok cs)
    (hp : p <+: cs) : m.Each ok p := by
  obtain ⟨ds, rfl⟩ := hp
  exact ((m.eachFrom_append m.init p ds).mp h).1

/-- A condition that implies another in every reached state. -/
theorem Each.imp {ok ok' : σ → ι → Prop}
    (hImp : ∀ p c, ok (m.run p) c → ok' (m.run p) c) {cs : List ι}
    (h : m.Each ok cs) : m.Each ok' cs := by
  induction cs using List.reverseRecOn with
  | nil => exact m.each_nil
  | append_singleton cs c ih =>
      rw [m.each_concat] at h ⊢
      exact ⟨ih h.1, hImp cs c h.2⟩

theorem Each.and {ok ok' : σ → ι → Prop} {cs : List ι} (h : m.Each ok cs)
    (h' : m.Each ok' cs) : m.Each (fun s c => ok s c ∧ ok' s c) cs := by
  induction cs using List.reverseRecOn with
  | nil => exact m.each_nil
  | append_singleton cs c ih =>
      rw [m.each_concat] at h h' ⊢
      exact ⟨ih h.1 h'.1, h.2, h'.2⟩

/-- A relation between state and history that every step allowed by `ok` keeps
holds after every run of allowed steps. -/
theorem Each.history_invariant {ok : σ → ι → Prop}
    {R : σ → List (ι × ρ) → Prop} (hInit : R m.init [])
    (hStep : ∀ s h c, ok s c → R s h →
      R (m.step s c).2 (h ++ [(c, (m.step s c).1)]))
    {cs : List ι} (h : m.Each ok cs) : R (m.run cs) (m.history cs) := by
  induction cs using List.reverseRecOn with
  | nil => exact hInit
  | append_singleton cs c ih =>
      rw [m.each_concat] at h
      rw [m.run_concat, m.history_concat]
      exact hStep _ _ c h.2 (ih h.1)

/-- An invariant of every allowed step holds all along a run of allowed
steps. -/
theorem Each.along {ok : σ → ι → Prop} {I : σ → Prop} (hInit : I m.init)
    (hStep : ∀ s c, ok s c → I s → I (m.step s c).2)
    {cs : List ι} (h : m.Each ok cs) : m.Along I cs := by
  intro p hp
  exact (h.earlier hp).history_invariant (R := fun s _ => I s) hInit
    fun s _ c => hStep s c

variable (m)

/-! ## Inputs that stand for several -/

/-- The machine whose input `k` stands for the inputs `expand k`, run one after
the other; its answer is their history. -/
def grouped {κ : Type} (expand : κ → List ι) : Machine σ κ (List (ι × ρ)) where
  init := m.init
  step s k := (m.historyFrom s (expand k), m.runFrom s (expand k))

theorem grouped_run {κ : Type} (expand : κ → List ι) (ks : List κ) :
    (m.grouped expand).run ks = m.run (ks.flatMap expand) := by
  induction ks using List.reverseRecOn with
  | nil => rfl
  | append_singleton ks k ih =>
      rw [run_concat, ih, List.flatMap_append, run_append]
      simp [grouped]

/-! ## Machines side by side -/

section Family

variable {κ : Type} [DecidableEq κ] {F I R : κ → Type}

/-- Machines that share nothing: an input addresses one of them, and the others
keep their states. -/
def family (ms : (k : κ) → Machine (F k) (I k) (R k)) :
    Machine ((k : κ) → F k) (Σ k, I k) (Σ k, R k) where
  init k := (ms k).init
  step s c := (⟨c.1, ((ms c.1).step (s c.1) c.2).1⟩,
    Function.update s c.1 ((ms c.1).step (s c.1) c.2).2)

/-- The input, if it addresses machine `k`. -/
def inputFor (k : κ) (c : Σ k, I k) : Option (I k) :=
  if h : c.1 = k then some (h ▸ c.2) else none

@[simp] theorem inputFor_self (k : κ) (i : I k) :
    inputFor k (⟨k, i⟩ : Σ k, I k) = some i := by
  simp [inputFor]

theorem inputFor_of_ne {k k' : κ} (h : k' ≠ k) (i : I k') :
    inputFor k (⟨k', i⟩ : Σ k, I k) = none := by
  simp [inputFor, h]

theorem mem_inputs {k : κ} {i : I k} {cs : List (Σ k, I k)} :
    i ∈ cs.filterMap (inputFor k) ↔ (⟨k, i⟩ : Σ k, I k) ∈ cs := by
  rw [List.mem_filterMap]
  constructor
  · rintro ⟨⟨k', i'⟩, hMem, hEq⟩
    by_cases hk : k' = k
    · subst hk
      rw [inputFor_self, Option.some.injEq] at hEq
      exact hEq ▸ hMem
    · rw [inputFor_of_ne hk] at hEq
      cases hEq
  · exact fun hMem => ⟨⟨k, i⟩, hMem, inputFor_self k i⟩

variable {ms : (k : κ) → Machine (F k) (I k) (R k)}

/-- Each machine runs through the inputs that address it, and the others do not
disturb it. -/
theorem family_runFrom (s : (k : κ) → F k) (cs : List (Σ k, I k)) (k : κ) :
    (family ms).runFrom s cs k =
      (ms k).runFrom (s k) (cs.filterMap (inputFor k)) := by
  induction cs generalizing s with
  | nil => rfl
  | cons c cs ih =>
      obtain ⟨k', i⟩ := c
      show (family ms).runFrom ((family ms).step s ⟨k', i⟩).2 cs k = _
      rw [ih]
      by_cases hk : k' = k
      · subst hk
        rw [List.filterMap_cons_some (inputFor_self k' i)]
        simp [family, runFrom]
      · have hk' : k ≠ k' := fun hEq => hk hEq.symm
        rw [List.filterMap_cons_none (inputFor_of_ne hk i)]
        simp [family, hk']

theorem family_run (cs : List (Σ k, I k)) (k : κ) :
    (family ms).run cs k = (ms k).run (cs.filterMap (inputFor k)) :=
  family_runFrom _ cs k

/-- Inputs that all address one machine. -/
theorem family_history_map (k : κ) (is : List (I k)) :
    (family ms).history (is.map (Sigma.mk k)) =
      ((ms k).history is).map fun e => (⟨k, e.1⟩, ⟨k, e.2⟩) := by
  induction is using List.reverseRecOn with
  | nil => rfl
  | append_singleton is i ih =>
      have hSelf : inputFor k ∘ Sigma.mk k = (some : I k → Option (I k)) :=
        funext (inputFor_self k)
      have hInputs : (is.map (Sigma.mk k)).filterMap (inputFor k) = is := by
        rw [List.filterMap_map, hSelf, List.filterMap_some]
      have hRun : (family ms).run (is.map (Sigma.mk k)) k = (ms k).run is := by
        rw [family_run, hInputs]
      rw [List.map_append, List.map_singleton, history_concat, ih,
        history_concat, List.map_append, List.map_singleton, ← hRun]
      rfl

/-- What happened to machine `k` is what it answered to those inputs. -/
theorem mem_family_historyFrom (s : (k : κ) → F k) (cs : List (Σ k, I k))
    (k : κ) (i : I k) (r : R k) :
    ((⟨k, i⟩, ⟨k, r⟩) : (Σ k, I k) × Σ k, R k) ∈
        (family ms).historyFrom s cs ↔
      (i, r) ∈ (ms k).historyFrom (s k) (cs.filterMap (inputFor k)) := by
  induction cs generalizing s with
  | nil => simp [historyFrom]
  | cons c cs ih =>
      obtain ⟨k', i'⟩ := c
      show _ ∈ (_, _) :: (family ms).historyFrom ((family ms).step s ⟨k', i'⟩).2
        cs ↔ _
      rw [List.mem_cons, ih]
      by_cases hk : k' = k
      · subst hk
        rw [List.filterMap_cons_some (inputFor_self k' i')]
        simp [family, historyFrom]
      · have hk' : k ≠ k' := fun hEq => hk hEq.symm
        rw [List.filterMap_cons_none (inputFor_of_ne hk i')]
        simp [family, hk']

theorem mem_family_history (cs : List (Σ k, I k)) (k : κ) (i : I k)
    (r : R k) :
    ((⟨k, i⟩, ⟨k, r⟩) : (Σ k, I k) × Σ k, R k) ∈ (family ms).history cs ↔
      (i, r) ∈ (ms k).history (cs.filterMap (inputFor k)) :=
  mem_family_historyFrom _ cs k i r

end Family

/-! ## Quantities summed over a run -/

/-- What the inputs cost together on the way from a given state. -/
def tallyFrom (cost : σ → ι → Nat) : σ → List ι → Nat
  | _, [] => 0
  | s, c :: cs => cost s c + tallyFrom cost (m.step s c).2 cs

/-- What the calls of a run cost together, each in the state it met. Costs are
added up in `Nat`. -/
def tally (cost : σ → ι → Nat) (cs : List ι) : Nat := m.tallyFrom cost m.init cs

theorem tallyFrom_append (cost : σ → ι → Nat) (s : σ) (cs ds : List ι) :
    m.tallyFrom cost s (cs ++ ds) =
      m.tallyFrom cost s cs + m.tallyFrom cost (m.runFrom s cs) ds := by
  induction cs generalizing s with
  | nil => exact (Nat.zero_add _).symm
  | cons c cs ih =>
      show cost s c + m.tallyFrom cost (m.step s c).2 (cs ++ ds) = _
      rw [ih, ← Nat.add_assoc]
      rfl

theorem tally_concat (cost : σ → ι → Nat) (cs : List ι) (c : ι) :
    m.tally cost (cs ++ [c]) = m.tally cost cs + cost (m.run cs) c :=
  m.tallyFrom_append cost m.init cs [c]

/-! ## Reading histories -/

/-- A reading of a history entry by entry grows with it. -/
theorem filterMap_concat {α β : Type} (f : α → Option β) (l : List α)
    (a : α) : (l ++ [a]).filterMap f = l.filterMap f ++ (f a).toList := by
  rw [List.filterMap_append]
  cases h : f a with
  | none => simp [h]
  | some b => simp [h]

/-- The history of a prefix is a prefix of the history. -/
theorem history_mono {p cs : List ι} (hp : p <+: cs) :
    m.history p <+: m.history cs := by
  obtain ⟨ds, rfl⟩ := hp
  rw [m.history_append]
  exact List.prefix_append _ _

end Machine

end ForgePass.Verified
