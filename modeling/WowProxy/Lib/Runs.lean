/-
  Lib/Runs.lean --- runs of a machine whose step is a partial function of a
  label.

  A label names one atomic step of one party and everything the environment
  decides in it, so a list of labels is one interleaving.  A condition on steps is
  a predicate on the state before the step and its label; `run_invariant` is the
  rule for what holds in every state that such steps reach, and
  `eachStep_invariant` the same for a family of machines that share nothing.
-/
import Mathlib.Data.List.Induction
import Mathlib.Logic.Function.Basic

set_option autoImplicit false

namespace WowProxy.Lib.Runs

universe u v

variable {σ : Type u} {α : Type v} (step : σ → α → Option σ)

/-- The state behind the steps `labels`, if all of them can be taken. -/
def run : σ → List α → Option σ
  | s, [] => some s
  | s, a :: labels =>
    match step s a with
    | none => none
    | some s' => run s' labels

/-- Every step of the run meets the condition, in the state it is taken in. -/
def Meets (Good : σ → α → Prop) : σ → List α → Prop
  | _, [] => True
  | s, a :: labels => Good s a ∧ ∀ s', step s a = some s' → Meets Good s' labels

/-- Whether the steps of a given run meet a decidable condition can be computed. -/
instance Meets.decidable (Good : σ → α → Prop) [∀ s a, Decidable (Good s a)] :
    ∀ (s : σ) (labels : List α), Decidable (Meets step Good s labels)
  | _, [] => isTrue trivial
  | s, a :: labels =>
    match h : step s a with
    | none => decidable_of_iff (Good s a)
        ⟨fun hgood => ⟨hgood, fun s' hs' => absurd (h.symm.trans hs') (by simp)⟩, fun h => h.1⟩
    | some t =>
      have := Meets.decidable Good t labels
      decidable_of_iff (Good s a ∧ Meets step Good t labels)
        ⟨fun hboth => ⟨hboth.1, fun _ hs' => Option.some.inj (h.symm.trans hs') ▸ hboth.2⟩,
          fun hboth => ⟨hboth.1, hboth.2 t h⟩⟩

variable {step}

/-- The first step of a run and the rest. -/
theorem run_cons_eq_some {s s' : σ} {a : α} {labels : List α}
    (h : run step s (a :: labels) = some s') :
    ∃ t, step s a = some t ∧ run step t labels = some s' := by
  rw [run] at h
  cases hstep : step s a with
  | none => rw [hstep] at h; exact absurd h (by simp)
  | some t => rw [hstep] at h; exact ⟨t, rfl, h⟩

theorem run_append {s t s' : σ} {labels labels' : List α} (h : run step s labels = some t)
    (h' : run step t labels' = some s') : run step s (labels ++ labels') = some s' := by
  induction labels generalizing s with
  | nil =>
    obtain rfl := Option.some.inj h
    exact h'
  | cons a labels ih =>
    obtain ⟨u, hu, hrest⟩ := run_cons_eq_some h
    rw [List.cons_append, run, hu]
    exact ih hrest

/-- A run stands behind each of its first parts. -/
theorem run_append_eq_some {labels labels' : List α} : ∀ {s s' : σ},
    run step s (labels ++ labels') = some s' →
      ∃ t, run step s labels = some t ∧ run step t labels' = some s' := by
  induction labels with
  | nil => exact fun h => ⟨_, rfl, h⟩
  | cons a labels ih =>
    intro s s' h
    obtain ⟨u, hu, hrest⟩ := run_cons_eq_some h
    obtain ⟨t, ht, hrest⟩ := ih hrest
    refine ⟨t, ?_, hrest⟩
    rw [run, hu]
    exact ht

theorem Meets.append {Good : σ → α → Prop} {s t : σ} {labels labels' : List α}
    (h : run step s labels = some t) (hgood : Meets step Good s labels)
    (hgood' : Meets step Good t labels') : Meets step Good s (labels ++ labels') := by
  induction labels generalizing s with
  | nil =>
    obtain rfl := Option.some.inj h
    exact hgood'
  | cons a labels ih =>
    obtain ⟨u, hu, hrest⟩ := run_cons_eq_some h
    refine ⟨hgood.1, fun s' hs' => ?_⟩
    obtain rfl := Option.some.inj (hu.symm.trans hs')
    exact ih hrest (hgood.2 u hu)

/-- What every step that meets the condition preserves holds behind every run of
such steps. -/
theorem run_invariant {Good : σ → α → Prop} {Inv : σ → Prop}
    (hstep : ∀ s a s', Inv s → Good s a → step s a = some s' → Inv s')
    {labels : List α} : ∀ {s s' : σ}, Inv s → Meets step Good s labels →
      run step s labels = some s' → Inv s' := by
  induction labels with
  | nil =>
    intro s s' hinv _ hrun
    obtain rfl := Option.some.inj hrun
    exact hinv
  | cons a labels ih =>
    intro s s' hinv hgood hrun
    obtain ⟨t, ht, hrest⟩ := run_cons_eq_some hrun
    exact ih (hstep s a t hinv hgood.1 ht) (hgood.2 t ht) hrest

/-- A condition that each of the labels meets in every state. -/
theorem Meets.of_forall {Good : σ → α → Prop} {labels : List α}
    (h : ∀ a ∈ labels, ∀ s, Good s a) (s : σ) : Meets step Good s labels := by
  induction labels generalizing s with
  | nil => trivial
  | cons a labels ih =>
    exact ⟨h a List.mem_cons_self s,
      fun s' _ => ih (fun b hb => h b (List.mem_cons_of_mem a hb)) s'⟩

/-- A condition on labels alone, along a run that goes through. -/
theorem meets_iff_forall {Good : α → Prop} {labels : List α} :
    ∀ {s s' : σ}, run step s labels = some s' →
      (Meets step (fun _ a => Good a) s labels ↔ ∀ a ∈ labels, Good a) := by
  induction labels with
  | nil =>
    intro s s' _
    exact ⟨fun _ a ha => absurd ha List.not_mem_nil, fun _ => trivial⟩
  | cons a labels ih =>
    intro s s' hrun
    obtain ⟨u, hu, hrest⟩ := run_cons_eq_some hrun
    constructor
    · rintro ⟨hgood, hmeets⟩ b hb
      rcases List.mem_cons.mp hb with rfl | hb
      · exact hgood
      · exact (ih hrest).mp (hmeets u hu) b hb
    · exact fun hall => Meets.of_forall (fun b hb _ => hall b hb) s

/-- What every step preserves holds behind every run. -/
theorem run_preserves {Inv : σ → Prop} (hstep : ∀ s a s', Inv s → step s a = some s' → Inv s')
    {labels : List α} {s s' : σ} (hinv : Inv s) (hrun : run step s labels = some s') : Inv s' :=
  run_invariant (fun s a s' h _ hs => hstep s a s' h hs) hinv
    (Meets.of_forall (fun _ _ _ => trivial) s : Meets step (fun _ _ => True) s labels) hrun

/-- A machine follows another where each of its steps answers a step of the other. -/
theorem run_refines {τ : Type u} {step' : τ → α → Option τ} {R : σ → τ → Prop}
    (hstep : ∀ s t a t', R s t → step' t a = some t' → ∃ s', step s a = some s' ∧ R s' t')
    {labels : List α} : ∀ {s : σ} {t t' : τ}, R s t → run step' t labels = some t' →
      ∃ s', run step s labels = some s' ∧ R s' t' := by
  induction labels with
  | nil =>
    intro s t t' hrel hrun
    obtain rfl := Option.some.inj hrun
    exact ⟨s, rfl, hrel⟩
  | cons a labels ih =>
    intro s t t' hrel hrun
    obtain ⟨u, hu, hrest⟩ := run_cons_eq_some hrun
    obtain ⟨s₁, hs₁, hrel₁⟩ := hstep s t a u hrel hu
    obtain ⟨s', hs', hrel'⟩ := ih hrel₁ hrest
    refine ⟨s', ?_, hrel'⟩
    rw [run, hs₁]
    exact hs'

/-- What every step preserves of the labels so far and the state holds behind every run. -/
theorem run_history (Inv : List α → σ → Prop) {s : σ} (hinit : Inv [] s)
    (hstep : ∀ labels t a t', Inv labels t → step t a = some t' → Inv (labels ++ [a]) t')
    {labels : List α} : ∀ {s' : σ}, run step s labels = some s' → Inv labels s' := by
  induction labels using List.reverseRecOn with
  | nil =>
    intro s' hrun
    obtain rfl := Option.some.inj hrun
    exact hinit
  | append_singleton labels a ih =>
    intro s' hrun
    obtain ⟨t, ht, hrest⟩ := run_append_eq_some hrun
    obtain ⟨u, hu, hdone⟩ := run_cons_eq_some hrest
    obtain rfl := Option.some.inj hdone
    exact hstep labels t a u (ih ht) hu

/-- Where a step preserves `Inv` exactly when it meets the condition, `Inv` holds all
along a run exactly when all its steps meet it. -/
theorem run_always_iff {Good : σ → α → Prop} {Inv : σ → Prop}
    (hstep : ∀ s a s', Inv s → step s a = some s' → (Inv s' ↔ Good s a)) {labels : List α} :
    ∀ {s s' : σ}, Inv s → run step s labels = some s' →
      ((∀ k t, run step s (labels.take k) = some t → Inv t) ↔ Meets step Good s labels) := by
  induction labels with
  | nil =>
    intro s s' hinv _
    refine ⟨fun _ => trivial, fun _ k t ht => ?_⟩
    rw [List.take_nil] at ht
    obtain rfl := Option.some.inj ht
    exact hinv
  | cons a labels ih =>
    intro s s' hinv hrun
    obtain ⟨u, hu, hrest⟩ := run_cons_eq_some hrun
    constructor
    · intro hall
      have hone : run step s ((a :: labels).take 1) = some u := by
        rw [List.take_succ_cons, List.take_zero, run, hu]
        rfl
      have hinv' := hall 1 u hone
      refine ⟨(hstep s a u hinv hu).mp hinv', fun u' hu' => ?_⟩
      obtain rfl := Option.some.inj (hu.symm.trans hu')
      refine (ih hinv' hrest).mp fun k t ht => hall (k + 1) t ?_
      rw [List.take_succ_cons, run, hu]
      exact ht
    · rintro ⟨hgood, hmeets⟩ k t ht
      have hinv' := (hstep s a u hinv hu).mpr hgood
      cases k with
      | zero =>
        rw [List.take_zero] at ht
        obtain rfl := Option.some.inj ht
        exact hinv
      | succ k =>
        rw [List.take_succ_cons, run, hu] at ht
        exact (ih hinv' hrest).mpr (hmeets u hu) k t ht

/-- A measure that every step lowers bounds the runs. -/
theorem run_length_le {Inv : σ → Prop} {measure : σ → Nat}
    (hstep : ∀ s a s', Inv s → step s a = some s' → Inv s' ∧ measure s' < measure s)
    {labels : List α} : ∀ {s s' : σ}, Inv s → run step s labels = some s' →
      labels.length + measure s' ≤ measure s := by
  induction labels with
  | nil =>
    intro s s' _ hrun
    obtain rfl := Option.some.inj hrun
    exact Nat.le_of_eq (Nat.zero_add _)
  | cons a labels ih =>
    intro s s' hinv hrun
    obtain ⟨t, ht, hrest⟩ := run_cons_eq_some hrun
    obtain ⟨hinv', hlt⟩ := hstep s a t hinv ht
    have hle := ih hinv' hrest
    rw [List.length_cons]
    omega

/-! ## Families of machines that share nothing -/

section Family

universe w

variable {ι : Type w} [DecidableEq ι] (step : σ → α → Option σ)

/-- One machine of the family takes a step of its own. -/
def eachStep (s : ι → σ) (a : ι × α) : Option (ι → σ) :=
  (step (s a.1) a.2).map (Function.update s a.1)

/-- The step meets the condition in the state of its machine. -/
def OnEach (Good : σ → α → Prop) (s : ι → σ) (a : ι × α) : Prop := Good (s a.1) a.2

variable {step}

/-- What every step of one machine preserves holds of all machines behind every
interleaving of such steps. -/
theorem eachStep_invariant {Good : σ → α → Prop} {Inv : σ → Prop}
    (hstep : ∀ s a s', Inv s → Good s a → step s a = some s' → Inv s')
    {labels : List (ι × α)} {s s' : ι → σ} (hinv : ∀ i, Inv (s i))
    (hgood : Meets (eachStep step) (OnEach Good) s labels)
    (hrun : run (eachStep step) s labels = some s') : ∀ i, Inv (s' i) := by
  have hall : ∀ (s : ι → σ) a s', (∀ i, Inv (s i)) → OnEach Good s a →
      eachStep step s a = some s' → ∀ i, Inv (s' i) := by
    intro s a s' hinv hgood hs' i
    obtain ⟨t, ht, rfl⟩ := Option.map_eq_some_iff.mp hs'
    by_cases hi : i = a.1
    · rw [hi, Function.update_self]
      exact hstep _ _ _ (hinv a.1) hgood ht
    · rw [Function.update_of_ne hi]
      exact hinv i
  exact run_invariant hall hinv hgood hrun

/-- A run of one machine while the others stand still. -/
theorem run_eachStep (i : ι) {labels : List α} :
    ∀ {s : ι → σ} {t : σ}, run step (s i) labels = some t →
      run (eachStep step) s (labels.map (i, ·)) = some (Function.update s i t) := by
  induction labels with
  | nil =>
    intro s t h
    obtain rfl := Option.some.inj h
    rw [Function.update_eq_self]
    rfl
  | cons a labels ih =>
    intro s t h
    obtain ⟨u, hu, hrest⟩ := run_cons_eq_some h
    have hstep : eachStep step s (i, a) = some (Function.update s i u) := by
      rw [eachStep, hu, Option.map_some]
    rw [List.map_cons, run, hstep]
    have hself : run step (Function.update s i u i) labels = some t := by
      rw [Function.update_self, hrest]
    rw [show Function.update s i t = Function.update (Function.update s i u) i t from
      (Function.update_idem u t s).symm]
    exact ih hself

theorem Meets.eachStep (i : ι) {Good : σ → α → Prop} {labels : List α} :
    ∀ {s : ι → σ}, Meets step Good (s i) labels →
      Meets (Runs.eachStep step) (OnEach Good) s (labels.map (i, ·)) := by
  induction labels with
  | nil => intro s _; trivial
  | cons a labels ih =>
    intro s h
    refine ⟨h.1, fun s' hs' => ih ?_⟩
    obtain ⟨u, hu, rfl⟩ := Option.map_eq_some_iff.mp hs'
    rw [Function.update_self]
    exact h.2 u hu

end Family

end WowProxy.Lib.Runs
