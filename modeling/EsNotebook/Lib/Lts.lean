import Mathlib.Logic.Relation

/-!
# Labelled transition systems

A system has initial states and a labelled step relation.  Runs are the
finite sequences of steps, and a state is reachable when some run from an
initial state ends in it.  The rules below are the ones every safety
argument uses: an inductive invariant holds in all reachable states, a run
may be extended at either end, and restricting the steps of a system only
removes runs.
-/

namespace EsNotebook

/-- A labelled transition system over states `σ` and events `ε`. -/
structure Lts (σ ε : Type*) where
  init : σ → Prop
  step : σ → ε → σ → Prop

namespace Lts

variable {σ ε τ : Type*} {M : Lts σ ε}

/-- `M.Run s es t`: the events `es` lead from `s` to `t`. -/
inductive Run (M : Lts σ ε) (s : σ) : List ε → σ → Prop
  | nil : Run M s [] s
  | snoc {es : List ε} {t u : σ} {e : ε} :
      Run M s es t → M.step t e u → Run M s (es ++ [e]) u

/-- `s` ends some run from an initial state. -/
def Reachable (M : Lts σ ε) (s : σ) : Prop :=
  ∃ s₀ es, M.init s₀ ∧ M.Run s₀ es s

theorem Run.single {s t : σ} {e : ε} (h : M.step s e t) : M.Run s [e] t :=
  Run.snoc Run.nil h

theorem Run.append {s t u : σ} {es fs : List ε}
    (h : M.Run s es t) (h' : M.Run t fs u) : M.Run s (es ++ fs) u := by
  induction h' with
  | nil => simpa using h
  | snoc _ hstep ih => simpa using ih.snoc hstep

theorem Run.cons {s t u : σ} {e : ε} {es : List ε}
    (h : M.step s e t) (h' : M.Run t es u) : M.Run s (e :: es) u :=
  (Run.single h).append h'

theorem Reachable.of_init {s : σ} (h : M.init s) : M.Reachable s :=
  ⟨s, [], h, Run.nil⟩

theorem Reachable.run {s t : σ} {es : List ε} (h : M.Reachable s)
    (hrun : M.Run s es t) : M.Reachable t := by
  obtain ⟨s₀, fs, hinit, hfs⟩ := h
  exact ⟨s₀, fs ++ es, hinit, hfs.append hrun⟩

theorem Reachable.step {s t : σ} {e : ε} (h : M.Reachable s)
    (hstep : M.step s e t) : M.Reachable t :=
  h.run (Run.single hstep)

theorem Run.eq_of_terminal {s t : σ} {es : List ε} (h : M.Run s es t)
    (hs : ∀ e u, ¬M.step s e u) : t = s := by
  induction h with
  | nil => rfl
  | snoc _ hstep ih =>
      subst ih
      exact absurd hstep (hs _ _)

/-- The run over `es` from `s` to `t` takes the step from `u` to `v` on the
way. -/
structure Passes (M : Lts σ ε) (s : σ) (es : List ε) (t u : σ) (e : ε) (v : σ) : Prop where
  step : M.step u e v
  split : ∃ pre post, es = pre ++ e :: post ∧ M.Run s pre u ∧ M.Run v post t

theorem Passes.run {s t u v : σ} {e : ε} {es : List ε} (h : M.Passes s es t u e v) :
    M.Run s es t := by
  obtain ⟨pre, post, rfl, hpre, hpost⟩ := h.split
  exact hpre.append (.cons h.step hpost)

/-- What every step preserves, every run preserves. -/
theorem Run.preserves {I : σ → Prop}
    (hstep : ∀ s e t, I s → M.step s e t → I t)
    {s t : σ} {es : List ε} (h : M.Run s es t) (hs : I s) : I t := by
  induction h with
  | nil => exact hs
  | snoc _ hlast ih => exact hstep _ _ _ ih hlast

/-- An inductive invariant of `M`. -/
structure Invariant (M : Lts σ ε) (I : σ → Prop) : Prop where
  init : ∀ s, M.init s → I s
  step : ∀ s e t, I s → M.step s e t → I t

theorem Invariant.reachable {I : σ → Prop} (h : M.Invariant I) {s : σ}
    (hs : M.Reachable s) : I s := by
  obtain ⟨s₀, es, hinit, hrun⟩ := hs
  exact hrun.preserves h.step (h.init s₀ hinit)

/-! ## Systems given by a guarded step function -/

/-- The system that starts in `s₀` and takes the steps on which `f` is
defined. -/
def ofStep (s₀ : σ) (f : σ → ε → Option σ) : Lts σ ε where
  init s := s = s₀
  step s e t := f s e = some t

theorem run_ofStep_iff {s₀ s t : σ} {f : σ → ε → Option σ} {es : List ε} :
    (ofStep s₀ f).Run s es t ↔ es.foldlM f s = some t := by
  constructor
  · intro h
    induction h with
    | nil => rfl
    | snoc _ hstep ih =>
        rw [List.foldlM_append, ih]
        simpa [ofStep] using hstep
  · intro h
    induction es generalizing s with
    | nil =>
        obtain rfl : s = t := by simpa using h
        exact Run.nil
    | cons e es ih =>
        rw [List.foldlM_cons] at h
        obtain ⟨u, hu, hrest⟩ := Option.bind_eq_some_iff.mp h
        exact Run.cons hu (ih hrest)

theorem run_ofStep_unique {s₀ s t u : σ} {f : σ → ε → Option σ} {es : List ε}
    (h : (ofStep s₀ f).Run s es t) (h' : (ofStep s₀ f).Run s es u) : t = u :=
  Option.some.inj ((run_ofStep_iff.mp h).symm.trans (run_ofStep_iff.mp h'))

/-- A replay on concrete events, and what is decided of the state it ends in. -/
theorem exists_run_of_replay {s₀ s : σ} {f : σ → ε → Option σ} {es : List ε} {P : σ → Prop}
    [DecidablePred P] (h : (es.foldlM f s).any (fun t ↦ decide (P t)) = true) :
    ∃ t, (ofStep s₀ f).Run s es t ∧ P t := by
  obtain ⟨t, ht, hP⟩ := (Option.any_eq_true _ _).mp h
  exact ⟨t, run_ofStep_iff.mpr ht, of_decide_eq_true hP⟩

/-- A replay in two parts, and what is decided of the state in the middle. -/
theorem exists_runs_of_replay {s₀ s : σ} {f : σ → ε → Option σ} {es fs : List ε} {P : σ → Prop}
    [DecidablePred P]
    (h : (es.foldlM f s).any (fun t ↦ decide (P t) && (fs.foldlM f t).isSome) = true) :
    ∃ t u, (ofStep s₀ f).Run s es t ∧ P t ∧ (ofStep s₀ f).Run t fs u := by
  obtain ⟨t, ht, hP⟩ := (Option.any_eq_true _ _).mp h
  rw [Bool.and_eq_true, decide_eq_true_eq, Option.isSome_iff_exists] at hP
  obtain ⟨hP, u, hu⟩ := hP
  exact ⟨t, u, run_ofStep_iff.mpr ht, hP, run_ofStep_iff.mpr hu⟩

/-! ## What the steps of a run put out -/

/-- The outputs of the steps over `es`, in order, when a step from `s` with
the event `e` puts out `g s e`. -/
def outputs {α : Type*} (f : σ → ε → Option σ) (g : σ → ε → List α) : σ → List ε → List α
  | _, [] => []
  | s, e :: es => g s e ++ (f s e).elim [] fun t ↦ outputs f g t es

theorem run_ofStep_cons_iff {s₀ s t : σ} {f : σ → ε → Option σ} {e : ε} {es : List ε} :
    (ofStep s₀ f).Run s (e :: es) t ↔ ∃ u, f s e = some u ∧ (ofStep s₀ f).Run u es t := by
  simp only [run_ofStep_iff, List.foldlM_cons]
  exact Option.bind_eq_some_iff

/-- A run passes its first step and the steps of the rest. -/
theorem passes_ofStep_cons_iff {s₀ s t r u v : σ} {f : σ → ε → Option σ} {e e' : ε}
    {es : List ε} (hstep : f s e = some r) (hrun : (ofStep s₀ f).Run r es t) :
    (ofStep s₀ f).Passes s (e :: es) t u e' v ↔
      (u = s ∧ e' = e ∧ v = r) ∨ (ofStep s₀ f).Passes r es t u e' v := by
  constructor
  · rintro ⟨hlast, pre, post, heq, hpre, hpost⟩
    cases pre with
    | nil =>
        obtain ⟨rfl, rfl⟩ : e = e' ∧ es = post := by simpa using heq
        obtain rfl : s = u := by simpa [run_ofStep_iff] using hpre
        exact .inl ⟨rfl, rfl, Option.some.inj (hlast.symm.trans hstep)⟩
    | cons p pre =>
        obtain ⟨rfl, rfl⟩ : e = p ∧ es = pre ++ e' :: post := by simpa using heq
        obtain ⟨r', hr', hpre'⟩ := run_ofStep_cons_iff.mp hpre
        obtain rfl := Option.some.inj (hr'.symm.trans hstep)
        exact .inr ⟨hlast, pre, post, rfl, hpre', hpost⟩
  · rintro (⟨rfl, rfl, rfl⟩ | ⟨hlast, pre, post, rfl, hpre, hpost⟩)
    · exact ⟨hstep, [], es, rfl, .nil, hrun⟩
    · exact ⟨hlast, e :: pre, post, rfl, run_ofStep_cons_iff.mpr ⟨r, hstep, hpre⟩, hpost⟩

theorem mem_outputs_iff {α : Type*} {s₀ s t : σ} {f : σ → ε → Option σ} {g : σ → ε → List α}
    {es : List ε} (hrun : (ofStep s₀ f).Run s es t) {x : α} :
    x ∈ outputs f g s es ↔ ∃ u e v, (ofStep s₀ f).Passes s es t u e v ∧ x ∈ g u e := by
  induction es generalizing s with
  | nil =>
      simp only [outputs, List.not_mem_nil, false_iff]
      rintro ⟨u, e, v, ⟨-, pre, post, heq, -⟩, -⟩
      simp at heq
  | cons e es ih =>
      obtain ⟨r, hstep, hrest⟩ := run_ofStep_cons_iff.mp hrun
      simp only [outputs, hstep, Option.elim_some, List.mem_append, ih hrest]
      constructor
      · rintro (hx | ⟨u, e', v, hpass, hx⟩)
        · exact ⟨s, e, r, (passes_ofStep_cons_iff hstep hrest).mpr (.inl ⟨rfl, rfl, rfl⟩), hx⟩
        · exact ⟨u, e', v, (passes_ofStep_cons_iff hstep hrest).mpr (.inr hpass), hx⟩
      · rintro ⟨u, e', v, hpass, hx⟩
        rcases (passes_ofStep_cons_iff hstep hrest).mp hpass with ⟨rfl, rfl, rfl⟩ | hpass
        · exact .inl hx
        · exact .inr ⟨u, e', v, hpass, hx⟩

/-- What holds of the outputs of every step exactly under a condition on the
step holds of the outputs of a run exactly when every step meets it. -/
theorem forall_mem_outputs_iff {α : Type*} {s₀ s t : σ} {f : σ → ε → Option σ}
    {g : σ → ε → List α} {es : List ε} {P : α → Prop} {Q : σ → ε → Prop}
    (hstep : ∀ u e v, (ofStep s₀ f).step u e v → ((∀ x ∈ g u e, P x) ↔ Q u e))
    (hrun : (ofStep s₀ f).Run s es t) :
    (∀ x ∈ outputs f g s es, P x) ↔ ∀ u e v, (ofStep s₀ f).Passes s es t u e v → Q u e := by
  constructor
  · intro h u e v hpass
    apply (hstep u e v hpass.step).mp
    intro x hx
    exact h x ((mem_outputs_iff hrun).mpr ⟨u, e, v, hpass, hx⟩)
  · intro h x hx
    obtain ⟨u, e, v, hpass, hx⟩ := (mem_outputs_iff hrun).mp hx
    exact (hstep u e v hpass.step).mpr (h u e v hpass) x hx

theorem outputs_snoc {α : Type*} {s₀ s t : σ} {f : σ → ε → Option σ} {g : σ → ε → List α}
    {es : List ε} {e : ε} (hrun : (ofStep s₀ f).Run s es t) :
    outputs f g s (es ++ [e]) = outputs f g s es ++ g t e := by
  induction es generalizing s with
  | nil =>
      obtain rfl : s = t := by simpa [run_ofStep_iff] using hrun
      cases hstep : f s e <;> simp [outputs, hstep]
  | cons d es ih =>
      obtain ⟨r, hstep, hrest⟩ := run_ofStep_cons_iff.mp hrun
      simp [outputs, hstep, ih hrest]

/-! ## Restricting the steps -/

/-- Keep only the steps whose state and event satisfy `C`. -/
def restrict (M : Lts σ ε) (C : σ → ε → Prop) : Lts σ ε where
  init := M.init
  step s e t := M.step s e t ∧ C s e

theorem Run.of_restrict {C : σ → ε → Prop} {s t : σ} {es : List ε}
    (h : (M.restrict C).Run s es t) : M.Run s es t := by
  induction h with
  | nil => exact Run.nil
  | snoc _ hstep ih => exact ih.snoc hstep.1

/-- A run whose steps all satisfy `C` is a run of the restricted system. -/
theorem Run.restrict_of_steps {C : σ → ε → Prop} {s t : σ} {es : List ε}
    (h : M.Run s es t)
    (hC : ∀ pre e u v, pre ++ [e] <+: es → M.Run s pre u → M.step u e v → C u e) :
    (M.restrict C).Run s es t := by
  induction h with
  | nil => exact Run.nil
  | @snoc es t u e hrun hstep ih =>
      have hpre := ih fun pre e' u' v hle ↦ hC pre e' u' v (hle.trans (List.prefix_append _ _))
      exact hpre.snoc ⟨hstep, hC es e t u (List.prefix_refl _) hrun hstep⟩

theorem Run.restrict {C : σ → ε → Prop} {s t : σ} {es : List ε}
    (h : M.Run s es t) (hC : ∀ e ∈ es, ∀ s, C s e) : (M.restrict C).Run s es t :=
  h.restrict_of_steps fun _ e u _ hle _ _ ↦ hC e (hle.subset (by simp)) u

theorem Reachable.of_restrict {C : σ → ε → Prop} {s : σ}
    (h : (M.restrict C).Reachable s) : M.Reachable s := by
  obtain ⟨s₀, es, hinit, hrun⟩ := h
  exact ⟨s₀, es, hinit, hrun.of_restrict⟩

/-! ## Simulation -/

/-- Every step of `M` is matched by a run of `N` between related states. -/
structure Simulation {ε' : Type*} (M : Lts σ ε) (N : Lts τ ε')
    (R : σ → τ → Prop) : Prop where
  init : ∀ s, M.init s → ∃ a, N.init a ∧ R s a
  step : ∀ s e t a, R s a → M.step s e t → ∃ fs b, N.Run a fs b ∧ R t b

theorem Simulation.run {ε' : Type*} {N : Lts τ ε'} {R : σ → τ → Prop}
    (h : M.Simulation N R) {s t : σ} {es : List ε} (hrun : M.Run s es t)
    {a : τ} (ha : R s a) : ∃ fs b, N.Run a fs b ∧ R t b := by
  induction hrun with
  | nil => exact ⟨[], a, Run.nil, ha⟩
  | snoc _ hlast ih =>
      obtain ⟨fs, b, hb, hR⟩ := ih
      obtain ⟨gs, c, hc, hR'⟩ := h.step _ _ _ _ hR hlast
      exact ⟨fs ++ gs, c, hb.append hc, hR'⟩

theorem Simulation.reachable {ε' : Type*} {N : Lts τ ε'} {R : σ → τ → Prop}
    (h : M.Simulation N R) {s : σ} (hs : M.Reachable s) :
    ∃ a, N.Reachable a ∧ R s a := by
  obtain ⟨s₀, es, hinit, hrun⟩ := hs
  obtain ⟨a₀, ha₀, hR₀⟩ := h.init s₀ hinit
  obtain ⟨fs, a, ha, hR⟩ := h.run hrun hR₀
  exact ⟨a, ⟨a₀, fs, ha₀, ha⟩, hR⟩

end Lts

end EsNotebook
