import ForgePass.Verified.Machine

/-!
# One machine following another

`Simulation` relates the states of two machines, the second of which is given
the images of the first one's inputs.  An input without an image is *erased*:
the first machine must absorb it without leaving the relation.  Mapping every
input compares a machine with a renamed copy of itself, and keeping only some
of the inputs compares a run with a reduced one.

For a reduced run of the same machine `Noninterfering` states what the
comparison is for: the kept inputs cannot tell whether the others happened.
-/

namespace ForgePass.Verified

namespace Machine

variable {σ ι ρ σ' ι' ρ' : Type}

/-- Two outcomes of a step, each an answer with a next state, are related: the
answers by `Q`, the states by `R`. -/
structure Related (Q : ρ → ρ' → Prop) (R : σ → σ' → Prop) (x : ρ × σ)
    (x' : ρ' × σ') : Prop where
  answer : Q x.1 x'.1
  state : R x.2 x'.2

/-- Steps that branch on one condition are related branch by branch. -/
theorem Related.ite {Q : ρ → ρ' → Prop} {R : σ → σ' → Prop} {c : Prop}
    [Decidable c] {x y : ρ × σ} {x' y' : ρ' × σ'}
    (hThen : c → Related Q R x x') (hElse : ¬c → Related Q R y y') :
    Related Q R (if c then x else y) (if c then x' else y') := by
  by_cases h : c
  · rw [if_pos h, if_pos h]
    exact hThen h
  · rw [if_neg h, if_neg h]
    exact hElse h

/-- In states that satisfy `P`, an input with an image moves both machines and
keeps `R`, the answers related by `Q`; an erased input moves the first machine
only. -/
structure Simulation (m : Machine σ ι ρ) (m' : Machine σ' ι' ρ')
    (image : ι → Option ι') (P : σ → Prop) (R : σ → σ' → Prop)
    (Q : ρ → ρ' → Prop) : Prop where
  start : R m.init m'.init
  answers : ∀ s s' c c', P s → R s s' → image c = some c' →
    Q (m.step s c).1 (m'.step s' c').1
  kept : ∀ s s' c c', P s → R s s' → image c = some c' →
    R (m.step s c).2 (m'.step s' c').2
  erased : ∀ s s' c, P s → R s s' → image c = none → R (m.step s c).2 s'

namespace Simulation

variable {m : Machine σ ι ρ} {m' : Machine σ' ι' ρ'} {image : ι → Option ι'}
  {P : σ → Prop} {R : σ → σ' → Prop} {Q : ρ → ρ' → Prop}

/-- The states two runs reach are related. -/
theorem run (h : Simulation m m' image P R Q) {cs : List ι}
    (hP : m.Along P cs) : R (m.run cs) (m'.run (cs.filterMap image)) := by
  induction cs using List.reverseRecOn with
  | nil => exact h.start
  | append_singleton cs c ih =>
      have hBefore := ih hP.of_concat
      rw [filterMap_concat, m.run_concat]
      cases hImage : image c with
      | none =>
          rw [Option.toList_none, List.append_nil]
          exact h.erased _ _ c hP.of_concat.final hBefore hImage
      | some c' =>
          rw [Option.toList_some, m'.run_concat]
          exact h.kept _ _ c c' hP.of_concat.final hBefore hImage

/-- A relation between histories that answered inputs keep, when their answers
are related, and erased inputs do not disturb. -/
theorem history (h : Simulation m m' image P R Q)
    {T : List (ι × ρ) → List (ι' × ρ') → Prop} (hNil : T [] [])
    (hKept : ∀ l l' c c' r r', T l l' → image c = some c' → Q r r' →
      T (l ++ [(c, r)]) (l' ++ [(c', r')]))
    (hErased : ∀ l l' c r, T l l' → image c = none → T (l ++ [(c, r)]) l')
    {cs : List ι} (hP : m.Along P cs) :
    T (m.history cs) (m'.history (cs.filterMap image)) := by
  induction cs using List.reverseRecOn with
  | nil => exact hNil
  | append_singleton cs c ih =>
      have hBefore := ih hP.of_concat
      have hRun := h.run hP.of_concat
      rw [filterMap_concat, m.history_concat]
      cases hImage : image c with
      | none =>
          rw [Option.toList_none, List.append_nil]
          exact hErased _ _ c _ hBefore hImage
      | some c' =>
          rw [Option.toList_some, m'.history_concat]
          exact hKept _ _ c c' _ _ hBefore hImage
            (h.answers _ _ c c' hP.of_concat.final hRun hImage)

/-- A side condition that related states share holds along the second run. -/
theorem along (h : Simulation m m' image P R Q) {P' : σ' → Prop}
    (hP' : ∀ s s', P s → R s s' → P' s') {cs : List ι} (hP : m.Along P cs) :
    m'.Along P' (cs.filterMap image) := by
  intro q hq
  obtain ⟨p, hp, rfl⟩ := List.prefix_filterMap_iff.mp hq
  have hPart := hP.earlier hp
  exact hP' _ _ hPart.final (h.run hPart)

end Simulation

/-! ## Renamed runs -/

section Renamed

variable {m : Machine σ ι ρ} {m' : Machine σ' ι' ρ} {image : ι → ι'}
  {R : σ → σ' → Prop}

/-- A relation that every input keeps, with equal answers. -/
theorem Simulation.ofMap (hStart : R m.init m'.init)
    (hStep : ∀ s s' c, R s s' →
      Related Eq R (m.step s c) (m'.step s' (image c))) :
    Simulation m m' (some ∘ image) (fun _ => True) R Eq where
  start := hStart
  answers := by
    rintro s s' c c' - h hImage
    obtain rfl : image c = c' := Option.some.inj hImage
    exact (hStep s s' c h).answer
  kept := by
    rintro s s' c c' - h hImage
    obtain rfl : image c = c' := Option.some.inj hImage
    exact (hStep s s' c h).state
  erased := by
    rintro s s' c - - hImage
    cases hImage

theorem Simulation.run_map
    (h : Simulation m m' (some ∘ image) (fun _ => True) R Eq) (cs : List ι) :
    R (m.run cs) (m'.run (cs.map image)) := by
  have hAll : m.Along (fun _ => True) cs := fun _ _ => trivial
  have hRun := h.run hAll
  rw [List.filterMap_eq_map] at hRun
  exact hRun

/-- The renamed run has the renamed history, answers unchanged. -/
theorem Simulation.history_map
    (h : Simulation m m' (some ∘ image) (fun _ => True) R Eq) (cs : List ι) :
    m'.history (cs.map image) =
      (m.history cs).map fun e => (image e.1, e.2) := by
  have hAll : m.Along (fun _ => True) cs := fun _ _ => trivial
  have hHistory := h.history
    (T := fun l l' => l' = l.map fun e => (image e.1, e.2)) rfl ?_ ?_ hAll
  · rw [List.filterMap_eq_map] at hHistory
    exact hHistory
  · rintro l l' c c' r r' rfl hImage rfl
    obtain rfl : image c = c' := Option.some.inj hImage
    rw [List.map_append, List.map_singleton]
  · rintro l l' c r - hImage
    cases hImage

/-- A machine seen through maps of states and inputs that every step respects:
so does a run from any state, and so do its answers. -/
theorem runFrom_map {view : σ → σ'}
    (hStep : ∀ s c, m'.step (view s) (image c) =
      ((m.step s c).1, view (m.step s c).2)) (s : σ) (cs : List ι) :
    m'.runFrom (view s) (cs.map image) = view (m.runFrom s cs) ∧
      m'.historyFrom (view s) (cs.map image) =
        (m.historyFrom s cs).map fun e => (image e.1, e.2) := by
  induction cs generalizing s with
  | nil => exact ⟨rfl, rfl⟩
  | cons c cs ih =>
      obtain ⟨hRun, hHistory⟩ := ih (m.step s c).2
      constructor
      · show m'.runFrom (m'.step (view s) (image c)).2 _ = _
        rw [hStep, hRun]
        rfl
      · show (image c, (m'.step (view s) (image c)).1) ::
          m'.historyFrom (m'.step (view s) (image c)).2 _ = _
        rw [hStep, hHistory]
        rfl

end Renamed

/-! ## Reduced runs -/

variable {m : Machine σ ι ρ}

/-- At corresponding points of a run and of the run reduced to the inputs in
`keep`, kept inputs get related answers and the states related views. -/
structure Noninterfering (m : Machine σ ι ρ) (keep : ι → Bool)
    (answers : ρ → ρ → Prop) (views : σ → σ → Prop) (cs : List ι) : Prop where
  answered : ∀ p c, p ++ [c] <+: cs → keep c = true →
    answers (m.step (m.run p) c).1 (m.step (m.run (p.filter keep)) c).1
  viewed : ∀ p, p <+: cs → views (m.run p) (m.run (p.filter keep))

/-- A relation that kept inputs keep and the others do not disturb. -/
theorem Simulation.ofKeep {keep : ι → Bool} {P : σ → Prop} {R : σ → σ → Prop}
    {Q : ρ → ρ → Prop} (hStart : R m.init m.init)
    (hKept : ∀ s s' c, P s → R s s' → keep c = true →
      Related Q R (m.step s c) (m.step s' c))
    (hErased : ∀ s s' c, P s → R s s' → keep c = false →
      R (m.step s c).2 s') : Simulation m m (Option.guard keep) P R Q where
  start := hStart
  answers := by
    intro s s' c c' hP h hImage
    obtain ⟨rfl, hKeep⟩ := Option.guard_eq_some_iff.mp hImage
    exact (hKept s s' c hP h hKeep).answer
  kept := by
    intro s s' c c' hP h hImage
    obtain ⟨rfl, hKeep⟩ := Option.guard_eq_some_iff.mp hImage
    exact (hKept s s' c hP h hKeep).state
  erased := by
    intro s s' c hP h hImage
    rw [Option.guard_eq_none_iff] at hImage
    exact hErased s s' c hP h hImage

theorem Simulation.noninterfering {keep : ι → Bool} {P : σ → Prop}
    {R : σ → σ → Prop} {Q : ρ → ρ → Prop}
    (h : Simulation m m (Option.guard keep) P R Q) {views : σ → σ → Prop}
    (hViews : ∀ s s', R s s' → views s s') {cs : List ι}
    (hP : m.Along P cs) : Noninterfering m keep Q views cs := by
  have hRun {p : List ι} (hp : p <+: cs) :
      R (m.run p) (m.run (p.filter keep)) := by
    have hReached := h.run (hP.earlier hp)
    rw [List.filterMap_eq_filter] at hReached
    exact hReached
  constructor
  · intro p c hp hKeep
    have hBefore : p <+: cs := (List.prefix_append p [c]).trans hp
    refine h.answers _ _ c c (hP.earlier hBefore).final (hRun hBefore) ?_
    rw [Option.guard_eq_some_iff]
    exact ⟨rfl, hKeep⟩
  · intro p hp
    exact hViews _ _ (hRun hp)

end Machine

end ForgePass.Verified
