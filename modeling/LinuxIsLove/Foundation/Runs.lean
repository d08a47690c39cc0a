import Mathlib

/-!
# Runs of event-driven partial machines

A machine is a partial step function `step : σ → ε → Option σ`: in state `s` the event `e` is
enabled when `step s e` is defined.  `run` takes a list of events one after the other.

A run is `Guarded` by a condition on (state, event) pairs when each of its events meets the
condition in the state where it is taken; `Along` asks it of the events that are not enabled, too.
The two invariant rules are `invariant_of_run` (every run) and `invariant_of_guarded` (guarded runs
only); `related_of_guarded` is the same for a reflexive and transitive relation between the first
and the last state of a run.  `outputs` collects what the events of a run put out.
-/

namespace EventMachine

variable {σ ε : Type*}

/-- Take the events one after the other; `none` once an event is not enabled. -/
def run (step : σ → ε → Option σ) : σ → List ε → Option σ
  | s, [] => some s
  | s, e :: es => (step s e).bind fun s' => run step s' es

/-- Every event that is taken in the run of `es` from `s` is taken in a state where `good` allows
it. -/
def Guarded (step : σ → ε → Option σ) (good : σ → ε → Prop) : σ → List ε → Prop
  | _, [] => True
  | s, e :: es => ∀ s', step s e = some s' → good s e ∧ Guarded step good s' es

/-- Every event that comes up in the run of `es` from `s`, enabled or not, meets the condition in
the state where it comes up. -/
def Along (step : σ → ε → Option σ) (good : σ → ε → Prop) : σ → List ε → Prop
  | _, [] => True
  | s, e :: es => good s e ∧ ∀ s', step s e = some s' → Along step good s' es

/-- What the events of a run put out, one after the other. -/
def outputs {ω : Type*} (step : σ → ε → Option σ) (out : σ → ε → List ω) : σ → List ε → List ω
  | _, [] => []
  | s, e :: es => out s e ++ ((step s e).map fun s' => outputs step out s' es).getD []

variable {step : σ → ε → Option σ} {good : σ → ε → Prop}

@[simp] theorem run_nil (s : σ) : run step s [] = some s := rfl

theorem run_cons (s : σ) (e : ε) (es : List ε) :
    run step s (e :: es) = (step s e).bind fun s' => run step s' es := rfl

theorem run_cons_of_step {s s' : σ} {e : ε} (h : step s e = some s') (es : List ε) :
    run step s (e :: es) = run step s' es := by
  rw [run_cons, h]; rfl

theorem run_cons_eq_some {s t : σ} {e : ε} {es : List ε} :
    run step s (e :: es) = some t ↔ ∃ s', step s e = some s' ∧ run step s' es = some t := by
  rw [run_cons, Option.bind_eq_some_iff]

theorem run_append (s : σ) (es fs : List ε) :
    run step s (es ++ fs) = (run step s es).bind fun s' => run step s' fs := by
  induction es generalizing s with
  | nil => rfl
  | cons e es ih =>
    rw [List.cons_append, run_cons, run_cons]
    cases step s e with
    | none => rfl
    | some s' => exact ih s'

theorem run_append_eq_some {s t : σ} {es fs : List ε} :
    run step s (es ++ fs) = some t ↔
      ∃ m, run step s es = some m ∧ run step m fs = some t := by
  rw [run_append, Option.bind_eq_some_iff]

/-- The last event of a run, taken in the state that the others lead to. -/
theorem run_concat {s m : σ} {es : List ε} (e : ε) (h : run step s es = some m) :
    run step s (es ++ [e]) = step m e := by
  rw [run_append, h, Option.bind_some, run_cons]
  exact Option.bind_fun_some _

theorem outputs_cons {ω : Type*} {out : σ → ε → List ω} {s s' : σ} {e : ε}
    (h : step s e = some s') (es : List ε) :
    outputs step out s (e :: es) = out s e ++ outputs step out s' es := by
  rw [outputs, h]
  rfl

/-- Events that put out nothing. -/
theorem outputs_of_forall {ω : Type*} {out : σ → ε → List ω} (h : ∀ s e, out s e = []) (s : σ)
    (es : List ε) : outputs step out s es = [] := by
  induction es generalizing s with
  | nil => rfl
  | cons e es ih =>
    rw [outputs, h, List.nil_append]
    cases step s e with
    | none => rfl
    | some s' => exact ih s'

/-- All outputs of a run have a property exactly if the run is guarded by it, provided that events
that are not enabled put out nothing. -/
theorem forall_outputs_iff_guarded {ω : Type*} {out : σ → ε → List ω} {P : ω → Prop}
    (hnone : ∀ s e, step s e = none → out s e = []) (s : σ) (es : List ε) :
    (∀ o ∈ outputs step out s es, P o) ↔ Guarded step (fun s e => ∀ o ∈ out s e, P o) s es := by
  induction es generalizing s with
  | nil => exact ⟨fun _ => trivial, fun _ o ho => absurd ho List.not_mem_nil⟩
  | cons e es ih =>
    cases he : step s e with
    | none =>
      have hempty : outputs step out s (e :: es) = [] := by
        rw [outputs, he, hnone s e he]
        rfl
      rw [hempty]
      exact ⟨fun _ s' hs => absurd (he ▸ hs) (by simp), fun _ o ho => absurd ho List.not_mem_nil⟩
    | some s' =>
      rw [outputs_cons he, List.forall_mem_append, ih s']
      constructor
      · rintro ⟨hfirst, hrest⟩ t ht
        rw [he] at ht
        cases ht
        exact ⟨hfirst, hrest⟩
      · intro hg
        exact hg s' he

@[simp] theorem guarded_nil (s : σ) : Guarded step good s [] := trivial

theorem guarded_cons {s s' : σ} {e : ε} {es : List ε} (h : step s e = some s') :
    Guarded step good s (e :: es) ↔ good s e ∧ Guarded step good s' es := by
  constructor
  · intro hg
    exact hg s' h
  · intro hg t ht
    rw [h] at ht
    cases ht
    exact hg

instance decidableForallSome {o : Option σ} {P : σ → Prop} [DecidablePred P] :
    Decidable (∀ s, o = some s → P s) :=
  match o with
  | none => isTrue fun _ h => by cases h
  | some s => decidable_of_iff (P s) (by simp)

/-- Whether a run is guarded can be found out by taking it. -/
instance guardedDecidable [∀ s e, Decidable (good s e)] :
    ∀ (s : σ) (es : List ε), Decidable (Guarded step good s es)
  | _, [] => isTrue trivial
  | s, e :: es => by
    have := fun s' => guardedDecidable s' es
    unfold Guarded
    infer_instance

theorem guarded_append {s m : σ} {es fs : List ε} (h : run step s es = some m) :
    Guarded step good s (es ++ fs) ↔ Guarded step good s es ∧ Guarded step good m fs := by
  induction es generalizing s with
  | nil =>
    cases h
    simp
  | cons e es ih =>
    obtain ⟨s', hs, hrun⟩ := run_cons_eq_some.1 h
    rw [List.cons_append, guarded_cons hs, guarded_cons hs, ih hrun, and_assoc]

theorem Guarded.and {good' : σ → ε → Prop} {s : σ} {es : List ε} (hg : Guarded step good s es)
    (hg' : Guarded step good' s es) : Guarded step (fun s e => good s e ∧ good' s e) s es := by
  induction es generalizing s with
  | nil => trivial
  | cons e es ih =>
    intro s' hs
    obtain ⟨h1, h2⟩ := hg s' hs
    obtain ⟨h1', h2'⟩ := hg' s' hs
    exact ⟨⟨h1, h1'⟩, ih h2 h2'⟩

/-- Two conditions that an invariant makes equivalent at each step are met by the same runs. -/
theorem guarded_congr {base good' : σ → ε → Prop} {I : σ → Prop}
    (hkeep : ∀ s e s', I s → base s e → step s e = some s' → I s')
    (hiff : ∀ s e s', I s → base s e → step s e = some s' → (good s e ↔ good' s e)) {s : σ}
    {es : List ε} (hs : I s) (hb : Guarded step base s es) :
    Guarded step good s es ↔ Guarded step good' s es := by
  induction es generalizing s with
  | nil => exact Iff.rfl
  | cons e es ih =>
    refine forall_congr' fun s' => forall_congr' fun he => ?_
    obtain ⟨hbase, hrest⟩ := hb s' he
    exact and_congr (hiff s e s' hs hbase he) (ih (hkeep s e s' hs hbase he) hrest)

theorem guarded_of_forall (h : ∀ s e, good s e) (s : σ) (es : List ε) :
    Guarded step good s es := by
  induction es generalizing s with
  | nil => trivial
  | cons e es ih => exact fun s' _ => ⟨h s e, ih s'⟩

/-- A condition on the events alone is met by the runs of such events. -/
theorem guarded_of_mem {es : List ε} (h : ∀ e ∈ es, ∀ s, good s e) (s : σ) :
    Guarded step good s es := by
  induction es generalizing s with
  | nil => trivial
  | cons e es ih =>
    intro s' _
    exact ⟨h e List.mem_cons_self s, ih (fun f hf => h f (List.mem_cons_of_mem e hf)) s'⟩

/-- A reflexive and transitive relation that every allowed step respects relates the ends of
every guarded run, provided an invariant holds on the way. -/
theorem related_of_guarded {I : σ → Prop} {R : σ → σ → Prop} (hrefl : ∀ s, R s s)
    (htrans : ∀ s t u, R s t → R t u → R s u)
    (hstep : ∀ s e s', I s → good s e → step s e = some s' → I s' ∧ R s s') {s t : σ}
    {es : List ε} (hs : I s) (hg : Guarded step good s es) (h : run step s es = some t) :
    I t ∧ R s t := by
  induction es generalizing s with
  | nil =>
    cases h
    exact ⟨hs, hrefl _⟩
  | cons e es ih =>
    obtain ⟨s', he, hrun⟩ := run_cons_eq_some.1 h
    obtain ⟨hgood, hrest⟩ := hg s' he
    obtain ⟨hI, hR⟩ := hstep s e s' hs hgood he
    obtain ⟨hI', hR'⟩ := ih hI hrest hrun
    exact ⟨hI', htrans s s' t hR hR'⟩

/-- What every allowed step preserves holds after every guarded run. -/
theorem invariant_of_guarded {I : σ → Prop}
    (hstep : ∀ s e s', I s → good s e → step s e = some s' → I s') {s t : σ} {es : List ε}
    (hs : I s) (hg : Guarded step good s es) (h : run step s es = some t) : I t := by
  have hpair := related_of_guarded (I := I) (R := fun _ _ => True) (fun _ => trivial)
    (fun _ _ _ _ _ => trivial)
    (fun s e s' hI hgood he => ⟨hstep s e s' hI hgood he, trivial⟩) hs hg h
  exact hpair.1

/-- What every step preserves holds after every run. -/
theorem invariant_of_run {I : σ → Prop} (hstep : ∀ s e s', I s → step s e = some s' → I s')
    {s t : σ} {es : List ε} (hs : I s) (h : run step s es = some t) : I t := by
  have hg : Guarded step (fun _ _ => True) s es := guarded_of_forall (fun _ _ => trivial) s es
  exact invariant_of_guarded (fun s e s' hI _ he => hstep s e s' hI he) hs hg h

/-- Two conditions that an invariant makes equivalent are met along the same runs, if the events
that meet them keep the invariant. -/
theorem along_congr {good' : σ → ε → Prop} {I : σ → Prop}
    (hiff : ∀ s e, I s → (good s e ↔ good' s e))
    (hkeep : ∀ s e s', I s → good' s e → step s e = some s' → I s') {s : σ} {es : List ε}
    (hs : I s) : Along step good s es ↔ Along step good' s es := by
  induction es generalizing s with
  | nil => exact Iff.rfl
  | cons e es ih =>
    rw [Along, Along, hiff s e hs]
    refine and_congr_right fun hgood => forall_congr' fun s' => forall_congr' fun he => ?_
    exact ih (hkeep s e s' hs hgood he)

/-- All outputs of a run have a property exactly if the outputs of each event that comes up have
it. -/
theorem forall_outputs_iff_along {ω : Type*} {out : σ → ε → List ω} {P : ω → Prop} (s : σ)
    (es : List ε) :
    (∀ o ∈ outputs step out s es, P o) ↔ Along step (fun s e => ∀ o ∈ out s e, P o) s es := by
  induction es generalizing s with
  | nil => exact ⟨fun _ => trivial, fun _ o ho => absurd ho List.not_mem_nil⟩
  | cons e es ih =>
    rw [outputs, Along, List.forall_mem_append]
    refine and_congr_right fun _ => ?_
    cases step s e with
    | none => simp
    | some s' => simpa using ih s'

/-- When every allowed step keeps an invariant, and every other step loses a consequence `P` of the
invariant, a run is guarded exactly if `P` holds at each of its states. -/
theorem guarded_iff_forall_prefix {I P : σ → Prop} (hP : ∀ s, I s → P s)
    (hkeep : ∀ s e s', I s → good s e → step s e = some s' → I s')
    (hlose : ∀ s e s', I s → step s e = some s' → P s' → good s e) {s : σ} (hs : I s)
    (es : List ε) :
    (∀ fs t, fs <+: es → run step s fs = some t → P t) ↔ Guarded step good s es := by
  induction es generalizing s with
  | nil =>
    refine ⟨fun _ => trivial, fun _ fs t hfs h => ?_⟩
    rw [List.prefix_nil] at hfs
    subst hfs
    cases h
    exact hP s hs
  | cons e es ih =>
    constructor
    · intro h s' he
      have hgood : good s e :=
        hlose s e s' hs he (h [e] s' ⟨es, rfl⟩ (by rw [run_cons_of_step he, run_nil]))
      refine ⟨hgood, (ih (hkeep s e s' hs hgood he)).1 fun fs t hfs hrun => ?_⟩
      exact h (e :: fs) t (List.cons_prefix_cons.2 ⟨rfl, hfs⟩)
        (by rw [run_cons_of_step he, hrun])
    · intro hg fs t hfs h
      cases fs with
      | nil =>
        cases h
        exact hP s hs
      | cons f fs =>
        obtain ⟨rfl, hfs'⟩ := List.cons_prefix_cons.1 hfs
        obtain ⟨s', he, hrun⟩ := run_cons_eq_some.1 h
        obtain ⟨hgood, hrest⟩ := hg s' he
        exact (ih (hkeep s f s' hs hgood he)).2 hrest fs t hfs' hrun

end EventMachine
