import Mathlib.Data.List.Infix
import Mathlib.Order.OrderIsoNat

/-!
# Runs of a partial step

The run vocabulary every screen and service below is stated in, for an
arbitrary step `σ → ε → Option σ` over states and events. A step that
returns `none` ends the run: an exception nobody catches, a trap on an
index, or an event that the state cannot produce.

Two judgements are made of a run. `Always P` asks for `P` at every event
the run gets to, together with the state it meets there; `Throughout Q`
asks for `Q` of every state the run gets to. The `cons` rules peel one
event off a run, and the invariant rules (`run_inv`,
`always_iff_of_inv`) turn a judgement about a whole run into one about a
single step.
-/

namespace VkClient

namespace Runs

variable {σ ε : Type*} (step : σ → ε → Option σ)

/-- The state after the events, if the run gets through all of them. -/
def run : σ → List ε → Option σ
  | s, [] => some s
  | s, e :: es => (step s e).bind fun s' => run s' es

/-- `P` holds at every event the run gets to, of the state before it. -/
def Always (P : σ → ε → Prop) (s : σ) (es : List ε) : Prop :=
  ∀ pre e t, pre ++ [e] <+: es → run step s pre = some t → P t e

/-- `Q` holds of every state the run gets to, its first one included. -/
def Throughout (Q : σ → Prop) (s : σ) (es : List ε) : Prop :=
  ∀ pre t, pre <+: es → run step s pre = some t → Q t

variable {step}

theorem run_cons_eq_some {s t : σ} {e : ε} {es : List ε} :
    run step s (e :: es) = some t ↔ ∃ s', step s e = some s' ∧ run step s' es = some t := by
  simp [run, Option.bind_eq_some_iff]

theorem run_append (s : σ) (es es' : List ε) :
    run step s (es ++ es') = (run step s es).bind fun t => run step t es' := by
  induction es generalizing s with
  | nil => rfl
  | cons e es ih =>
      cases hstep : step s e with
      | none => simp [run, hstep]
      | some s' => simpa [run, hstep] using ih s'

/-- The run rule: what holds first and survives every step holds last. -/
theorem run_inv {I : σ → Prop}
    (hstep : ∀ s e s', I s → step s e = some s' → I s')
    {es : List ε} {s t : σ} (hs : I s) (h : run step s es = some t) : I t := by
  induction es generalizing s with
  | nil =>
      obtain rfl := Option.some.inj h
      exact hs
  | cons e es ih =>
      rcases run_cons_eq_some.mp h with ⟨s', hs', ht⟩
      exact ih (hstep s e s' hs hs') ht

theorem run_singleton (s : σ) (e : ε) : run step s [e] = step s e := by
  cases h : step s e with
  | none => simp [run, h]
  | some s' => simp [run, h]

theorem run_concat_eq_some {s t : σ} {es : List ε} {e : ε} :
    run step s (es ++ [e]) = some t ↔ ∃ u, run step s es = some u ∧ step u e = some t := by
  simp [run_append, Option.bind_eq_some_iff, run_singleton]

/-- An invariant under which no step fails lets every run through. -/
theorem exists_run {I : σ → Prop} (hstep : ∀ s e, I s → ∃ s', step s e = some s' ∧ I s')
    (es : List ε) {s : σ} (hs : I s) : ∃ t, run step s es = some t ∧ I t := by
  induction es generalizing s with
  | nil => exact ⟨s, rfl, hs⟩
  | cons e es ih =>
      obtain ⟨s', hs', hI⟩ := hstep s e hs
      obtain ⟨t, ht, hIt⟩ := ih hI
      exact ⟨t, run_cons_eq_some.mpr ⟨s', hs', ht⟩, hIt⟩

/-- A part of the state that every event assigns or leaves alone has the
last value assigned to it; the steps may rely on an invariant. -/
theorem run_last_write_of_inv {α : Type*} {I : σ → Prop} {f : σ → α} {write : ε → Option α}
    (hstep : ∀ s e s', I s → step s e = some s' → I s' ∧ f s' = (write e).getD (f s))
    {es : List ε} {s t : σ} (hs : I s) (h : run step s es = some t) :
    f t = (es.filterMap write).getLast?.getD (f s) := by
  induction es generalizing s with
  | nil =>
      obtain rfl := Option.some.inj h
      rfl
  | cons e es ih =>
      obtain ⟨s', hs', ht⟩ := run_cons_eq_some.mp h
      obtain ⟨hI, hf⟩ := hstep s e s' hs hs'
      rw [ih hI ht, hf]
      cases hwrite : write e with
      | none => rw [List.filterMap_cons_none hwrite, Option.getD_none]
      | some a => rw [List.filterMap_cons_some hwrite, List.getLast?_cons, Option.getD_some,
          Option.getD_some]

theorem run_last_write {α : Type*} {f : σ → α} {write : ε → Option α}
    (hstep : ∀ s e s', step s e = some s' → f s' = (write e).getD (f s))
    {es : List ε} {s t : σ} (h : run step s es = some t) :
    f t = (es.filterMap write).getLast?.getD (f s) := by
  have hinv : ∀ s e s', True → step s e = some s' → True ∧ f s' = (write e).getD (f s) :=
    fun s e s' _ hs' => ⟨trivial, hstep s e s' hs'⟩
  exact run_last_write_of_inv hinv trivial h

/-- Events that leave every state as it is can be left out of a run. -/
theorem run_filter {p : ε → Bool} {es : List ε}
    (hskip : ∀ e ∈ es, p e = false → ∀ s, step s e = some s) (s : σ) :
    run step s (es.filter p) = run step s es := by
  induction es generalizing s with
  | nil => rfl
  | cons e es ih =>
      have ih' := ih fun e' he' => hskip e' (List.mem_cons_of_mem e he')
      cases hp : p e with
      | true =>
          rw [List.filter_cons_of_pos hp, run, run]
          exact congrArg _ (funext ih')
      | false =>
          rw [List.filter_cons_of_neg (by simp [hp]), run, hskip e List.mem_cons_self hp s]
          exact ih' s

/-! ## Peeling one event off -/

theorem always_nil {P : σ → ε → Prop} (s : σ) : Always step P s [] := by
  intro pre e t hpre
  simp at hpre

theorem always_cons {P : σ → ε → Prop} {s : σ} {e : ε} {es : List ε} :
    Always step P s (e :: es) ↔ P s e ∧ ∀ s', step s e = some s' → Always step P s' es := by
  constructor
  · intro h
    refine ⟨h [] e s (by simp) rfl, fun s' hs' pre e' t hpre ht => ?_⟩
    exact h (e :: pre) e' t (List.cons_prefix_cons.mpr ⟨rfl, hpre⟩)
      (run_cons_eq_some.mpr ⟨s', hs', ht⟩)
  · rintro ⟨hP, hrest⟩ pre e' t hpre ht
    cases pre with
    | nil =>
        rcases List.cons_prefix_cons.mp hpre with ⟨rfl, -⟩
        obtain rfl := Option.some.inj ht
        exact hP
    | cons e₁ pre =>
        rcases List.cons_prefix_cons.mp hpre with ⟨rfl, htail⟩
        rcases run_cons_eq_some.mp ht with ⟨s', hs', ht'⟩
        exact hrest s' hs' pre e' t htail ht'

theorem Throughout.head {Q : σ → Prop} {s : σ} {es : List ε}
    (h : Throughout step Q s es) : Q s :=
  h [] s List.nil_prefix rfl

theorem throughout_nil {Q : σ → Prop} {s : σ} : Throughout step Q s [] ↔ Q s := by
  constructor
  · intro h
    exact h.head
  · intro hs pre t hpre ht
    obtain rfl := List.prefix_nil.mp hpre
    obtain rfl := Option.some.inj ht
    exact hs

theorem throughout_cons {Q : σ → Prop} {s : σ} {e : ε} {es : List ε} :
    Throughout step Q s (e :: es) ↔
      Q s ∧ ∀ s', step s e = some s' → Throughout step Q s' es := by
  constructor
  · intro h
    refine ⟨h.head, fun s' hs' pre t hpre ht => ?_⟩
    exact h (e :: pre) t (List.cons_prefix_cons.mpr ⟨rfl, hpre⟩)
      (run_cons_eq_some.mpr ⟨s', hs', ht⟩)
  · rintro ⟨hs, hrest⟩ pre t hpre ht
    cases pre with
    | nil =>
        obtain rfl := Option.some.inj ht
        exact hs
    | cons e₁ pre =>
        rcases List.cons_prefix_cons.mp hpre with ⟨rfl, htail⟩
        rcases run_cons_eq_some.mp ht with ⟨s', hs', ht'⟩
        exact hrest s' hs' pre t htail ht'

theorem always_and {P Q : σ → ε → Prop} {s : σ} {es : List ε} :
    Always step (fun s e => P s e ∧ Q s e) s es ↔ Always step P s es ∧ Always step Q s es := by
  constructor
  · intro h
    exact ⟨fun pre e t hpre ht => (h pre e t hpre ht).1,
      fun pre e t hpre ht => (h pre e t hpre ht).2⟩
  · rintro ⟨hP, hQ⟩ pre e t hpre ht
    exact ⟨hP pre e t hpre ht, hQ pre e t hpre ht⟩

/-! ## The invariant rules -/

/-- The invariant rule for `Always`, with its guard: as long as every event
meets `C`, the invariant survives, and under the invariant `C` says of one
event what `P` says. The two judgements then agree on the whole run. -/
theorem always_iff_of_inv {P C : σ → ε → Prop} {I : σ → Prop}
    (hiff : ∀ s e, I s → (P s e ↔ C s e))
    (hkeep : ∀ s e s', I s → C s e → step s e = some s' → I s')
    {es : List ε} {s : σ} (hs : I s) : Always step P s es ↔ Always step C s es := by
  induction es generalizing s with
  | nil => exact iff_of_true (always_nil s) (always_nil s)
  | cons e es ih =>
      rw [always_cons, always_cons, hiff s e hs]
      refine and_congr_right fun hC => forall₂_congr fun s' hs' => ?_
      exact ih (hkeep s e s' hs hC hs')

theorem throughout_iff_always {Q : σ → Prop} {s : σ} {es : List ε} :
    Throughout step Q s es ↔
      Q s ∧ Always step (fun s e => ∀ s', step s e = some s' → Q s') s es := by
  induction es generalizing s with
  | nil => exact throughout_nil.trans (and_iff_left (always_nil s)).symm
  | cons e es ih =>
      rw [throughout_cons, always_cons]
      refine and_congr_right fun _ => ?_
      constructor
      · intro h
        exact ⟨fun s' hs' => (h s' hs').head, fun s' hs' => (ih.mp (h s' hs')).2⟩
      · rintro ⟨hQ, hrest⟩ s' hs'
        exact ih.mpr ⟨hQ s' hs', hrest s' hs'⟩

theorem throughout_of_forall {Q : σ → Prop} (h : ∀ s, Q s) (s : σ) (es : List ε) :
    Throughout step Q s es :=
  fun _ t _ _ => h t

theorem always_of_forall_mem {P : ε → Prop} {s : σ} {es : List ε} (h : ∀ e ∈ es, P e) :
    Always step (fun _ e => P e) s es :=
  fun _ e _ hpre _ => h e (hpre.subset (by simp))

/-- The run rule for a run whose every event meets a condition. -/
theorem run_inv_of_always {I : σ → Prop} {C : σ → ε → Prop}
    (hstep : ∀ s e s', I s → C s e → step s e = some s' → I s')
    {es : List ε} {s t : σ} (hC : Always step C s es) (hs : I s) (h : run step s es = some t) :
    I t := by
  induction es generalizing s with
  | nil =>
      obtain rfl := Option.some.inj h
      exact hs
  | cons e es ih =>
      rcases run_cons_eq_some.mp h with ⟨s', hs', ht⟩
      obtain ⟨he, hrest⟩ := always_cons.mp hC
      exact ih (hrest s' hs') (hstep s e s' hs he hs') ht

/-- The run rule for events that all meet a condition. -/
theorem run_inv_of_forall_mem {I : σ → Prop} {C : ε → Prop}
    (hstep : ∀ s e s', I s → C e → step s e = some s' → I s')
    {es : List ε} (hC : ∀ e ∈ es, C e) {s t : σ} (hs : I s) (h : run step s es = some t) :
    I t :=
  run_inv_of_always hstep (always_of_forall_mem hC) hs h

/-! ## Termination -/

/-- The termination rule: if under the invariant every event that meets `C`
lowers a well-founded measure, no run of such events is infinite. -/
theorem no_infinite_run {μ : Type*} [Preorder μ] [WellFoundedLT μ] {I : σ → Prop}
    {C : ε → Prop} (measure : σ → μ)
    (hstep : ∀ s e s', I s → C e → step s e = some s' → I s' ∧ measure s' < measure s)
    {w : ℕ → σ} {e : ℕ → ε} (hw : I (w 0)) (hC : ∀ i, C (e i)) :
    ¬∀ i, step (w i) (e i) = some (w (i + 1)) := by
  intro hrun
  have hI : ∀ i, I (w i) := by
    intro i
    induction i with
    | zero => exact hw
    | succ i ih => exact (hstep _ _ _ ih (hC i) (hrun i)).1
  refine not_strictAnti_of_wellFoundedLT (fun i => measure (w i)) ?_
  exact strictAnti_nat_of_succ_lt fun i => (hstep _ _ _ (hI i) (hC i) (hrun i)).2

end Runs

end VkClient
