import Mathlib.Data.List.Basic

/-!
# Runs and their invariants

A system is a function `step : σ → ε → σ`, and its run over a list of events is
`List.foldl step`; what the outside decides is part of the event. The induction
rules say that what one step preserves holds in every state the run reaches.

* `foldl_invariant` / `foldl_invariant_of_forall` / `foldl_invariant_of_meets`
  — the second for events and the third for steps that meet a side condition.
* `stepsMeet_iff_all_states_of_kept` / `stepsMeet_iff_all_states_of_meets` — the
  converse, for an exact condition.
* `foldr_keeps` — what no turn changes.
* `foldlM_invariant` / `atEvery_congr` — for steps that can be undefined.
-/

namespace Lib

variable {σ ε : Type*}

variable {step : σ → ε → σ} {I : σ → Prop}

/-- Every event of the run from `s` meets `ok` at the state it arrives in. -/
def StepsMeet (step : σ → ε → σ) (ok : σ → ε → Prop) : σ → List ε → Prop
  | _, [] => True
  | s, e :: es => ok s e ∧ StepsMeet step ok (step s e) es

instance decidableStepsMeet {ok : σ → ε → Prop} [∀ s e, Decidable (ok s e)] :
    ∀ (s : σ) (es : List ε), Decidable (StepsMeet step ok s es)
  | _, [] => .isTrue trivial
  | s, e :: es =>
    @instDecidableAnd (ok s e) (StepsMeet step ok (step s e) es) inferInstance
      (decidableStepsMeet (step s e) es)

/-- The first events of a run meet the condition. -/
theorem StepsMeet.of_prefix {ok : σ → ε → Prop} {es es' : List ε} (hpre : es' <+: es) :
    ∀ {s : σ}, StepsMeet step ok s es → StepsMeet step ok s es' := by
  obtain ⟨rest, rfl⟩ := hpre
  induction es' with
  | nil => exact fun _ => trivial
  | cons e es' ih => exact fun h => ⟨h.1, ih h.2⟩

theorem StepsMeet.and {ok ok' : σ → ε → Prop} {es : List ε} {s : σ} (h : StepsMeet step ok s es)
    (h' : StepsMeet step ok' s es) : StepsMeet step (fun s e => ok s e ∧ ok' s e) s es := by
  induction es generalizing s with
  | nil => trivial
  | cons e es ih => exact ⟨⟨h.1, h'.1⟩, ih h.2 h'.2⟩

theorem StepsMeet.of_forall {ok : σ → ε → Prop} (h : ∀ s e, ok s e) (es : List ε) (s : σ) :
    StepsMeet step ok s es := by
  induction es generalizing s with
  | nil => trivial
  | cons e es ih => exact ⟨h s e, ih _⟩

/-- Two conditions that agree where an invariant of all steps holds are met by the same runs. -/
theorem stepsMeet_congr {ok ok' : σ → ε → Prop} (hstep : ∀ s e, I s → I (step s e))
    (hiff : ∀ s e, I s → (ok s e ↔ ok' s e)) (es : List ε) {s : σ} (hs : I s) :
    StepsMeet step ok s es ↔ StepsMeet step ok' s es := by
  induction es generalizing s with
  | nil => exact Iff.rfl
  | cons e es ih => exact and_congr (hiff s e hs) (ih (hstep s e hs))

theorem stepsMeet_append {ok : σ → ε → Prop} {es es' : List ε} {s : σ} :
    StepsMeet step ok s (es ++ es') ↔
      StepsMeet step ok s es ∧ StepsMeet step ok (es.foldl step s) es' := by
  induction es generalizing s with
  | nil => exact (and_iff_right trivial).symm
  | cons e es ih =>
    show _ ∧ StepsMeet step ok (step s e) (es ++ es') ↔ (_ ∧ _) ∧ _
    rw [ih, and_assoc]
    rfl

/-- The log of the events so far. -/
theorem foldl_snoc (es log : List ε) : es.foldl (fun log e => log ++ [e]) log = log ++ es := by
  induction es generalizing log with
  | nil => exact (List.append_nil log).symm
  | cons e es ih => rw [List.foldl_cons, ih, List.append_assoc, List.singleton_append]

/-- What each step preserves holds at the end. -/
theorem foldl_invariant (hstep : ∀ s e, I s → I (step s e)) :
    ∀ (es : List ε) (s : σ), I s → I (es.foldl step s)
  | [], _, h => h
  | e :: es, s, h => foldl_invariant hstep es (step s e) (hstep s e h)

/-- The same where the steps meet a condition. -/
theorem foldl_invariant_of_meets {ok : σ → ε → Prop}
    (hstep : ∀ s e, I s → ok s e → I (step s e)) :
    ∀ (es : List ε) (s : σ), I s → StepsMeet step ok s es → I (es.foldl step s)
  | [], _, h, _ => h
  | e :: es, s, h, hmeets =>
    foldl_invariant_of_meets hstep es (step s e) (hstep s e h hmeets.1) hmeets.2

/-- The same for events with a property. -/
theorem foldl_invariant_of_forall {P : ε → Prop} (hstep : ∀ s e, I s → P e → I (step s e)) :
    ∀ (es : List ε) (s : σ), I s → (∀ e ∈ es, P e) → I (es.foldl step s)
  | [], _, h, _ => h
  | e :: es, s, h, hall =>
    foldl_invariant_of_forall hstep es (step s e) (hstep s e h (hall e List.mem_cons_self))
      fun e' he' => hall e' (List.mem_cons_of_mem e he')

/-- What no turn of a loop changes, the loop leaves alone. -/
theorem foldr_keeps {α : Type*} {turn : ε → σ → σ} (g : σ → α) (hturn : ∀ e s, g (turn e s) = g s)
    {es : List ε} {s : σ} : g (es.foldr turn s) = g s := by
  induction es with
  | nil => rfl
  | cons e es ih => rw [List.foldr_cons, hturn, ih]

/-- A run whose steps meet `side` meets `ok` as well, when a property of all its states says so
of each of its steps. -/
theorem StepsMeet.of_all_states {side ok : σ → ε → Prop} {J : σ → Prop}
    (hstep : ∀ s e, J s → side s e → I (step s e) → ok s e ∧ J (step s e)) {es : List ε} {s : σ}
    (hJ : J s) (hside : StepsMeet step side s es)
    (hall : ∀ es', es' <+: es → I (es'.foldl step s)) : StepsMeet step ok s es := by
  induction es generalizing s with
  | nil => trivial
  | cons e es ih =>
    -- the state after the first event starts a run of the same kind
    obtain ⟨hok, hJ'⟩ := hstep s e hJ hside.1 (hall [e] ⟨es, rfl⟩)
    refine ⟨hok, ih hJ' hside.2 fun es' hpre => ?_⟩
    exact hall (e :: es') (List.cons_prefix_cons.mpr ⟨rfl, hpre⟩)

/--
**Exact side conditions.** A run whose events all meet `side` keeps `J`. Where
`ok` says exactly which of these events keep a property `I`, the events of the
run all meet `ok` exactly when every state on the way has the property. -/
theorem stepsMeet_iff_all_states_of_meets {side ok : σ → ε → Prop} {J : σ → Prop}
    (hJ : ∀ s e, J s → side s e → J (step s e))
    (hstep : ∀ s e, J s → side s e → I s → (I (step s e) ↔ ok s e)) (es : List ε) :
    ∀ s, J s → I s → StepsMeet step side s es →
      (StepsMeet step ok s es ↔ ∀ es', es' <+: es → I (es'.foldl step s)) := by
  intro s hJs hI hside
  constructor
  · intro hok es' hpre
    have hboth := StepsMeet.of_prefix hpre (hside.and hok)
    refine (foldl_invariant_of_meets (I := fun s => J s ∧ I s) ?_ es' s ⟨hJs, hI⟩ hboth).2
    exact fun s e h he => ⟨hJ s e h.1 he.1, (hstep s e h.1 he.1 h.2).mpr he.2⟩
  · intro hall
    refine StepsMeet.of_all_states (J := fun s => J s ∧ I s) ?_ ⟨hJs, hI⟩ hside hall
    exact fun s e h he hI' => ⟨(hstep s e h.1 he h.2).mp hI', hJ s e h.1 he, hI'⟩

/-- The same where what a step keeps is known of the steps that meet `ok` only. -/
theorem stepsMeet_iff_all_states_of_kept {ok : σ → ε → Prop} {J : σ → Prop}
    (hJ : ∀ s e, J s → ok s e → J (step s e)) (hstep : ∀ s e, J s → (I (step s e) ↔ ok s e))
    (es : List ε) :
    ∀ s, J s → I s → (StepsMeet step ok s es ↔ ∀ es', es' <+: es → I (es'.foldl step s)) := by
  intro s hJs hI
  constructor
  · intro hok es' hpre
    have hmeets := StepsMeet.of_prefix hpre hok
    refine (foldl_invariant_of_meets (I := fun s => J s ∧ I s) ?_ es' s ⟨hJs, hI⟩ hmeets).2
    exact fun s e h he => ⟨hJ s e h.1 he, (hstep s e h.1).mpr he⟩
  · intro hall
    refine StepsMeet.of_all_states (J := J) ?_ hJs
      (StepsMeet.of_forall (fun _ _ => trivial) es s) hall
    intro s e hJ' _ hI'
    have hok := (hstep s e hJ').mp hI'
    exact ⟨hok, hJ s e hJ' hok⟩

/-- The same without anything else to keep. -/
theorem stepsMeet_iff_all_states {ok : σ → ε → Prop}
    (hstep : ∀ s e, I s → (I (step s e) ↔ ok s e)) {s : σ} (hs : I s) (es : List ε) :
    StepsMeet step ok s es ↔ ∀ es', es' <+: es → I (es'.foldl step s) :=
  stepsMeet_iff_all_states_of_kept (fun s e hI => (hstep s e hI).mpr) hstep es s hs hs

/-! ## Steps that can be undefined -/

section Partial

variable {step : σ → ε → Option σ} {s : σ} {es : List ε}

/-- Every event of the run from `s` has the property at the state it arrives in. -/
def AtEvery (step : σ → ε → Option σ) (P : σ → ε → Prop) (s : σ) (es : List ε) : Prop :=
  ∀ pre e post, es = pre ++ e :: post → ∀ t, pre.foldlM step s = some t → P t e

/-- The same for steps that may fail. -/
theorem foldlM_invariant {P : ε → Prop}
    (hstep : ∀ s e t, I s → P e → step s e = some t → I t) :
    ∀ (es : List ε) (s t : σ), I s → (∀ e ∈ es, P e) → es.foldlM step s = some t → I t
  | [], s, t, h, _, ht => by
    obtain rfl : s = t := Option.some.inj ht
    exact h
  | e :: es, s, t, h, hall, ht => by
    rw [List.foldlM_cons] at ht
    obtain ⟨r, hr, hrest⟩ := Option.bind_eq_some_iff.mp ht
    exact foldlM_invariant hstep es r t (hstep s e r h (hall e List.mem_cons_self) hr)
      (fun e' he' => hall e' (List.mem_cons_of_mem e he')) hrest

/-- Two properties that agree under an invariant hold at every event of the same runs. -/
theorem atEvery_congr {P : ε → Prop} {A B : σ → ε → Prop}
    (hstep : ∀ s e t, I s → P e → step s e = some t → I t)
    (hiff : ∀ s e, I s → P e → (A s e ↔ B s e)) (hs : I s) (hall : ∀ e ∈ es, P e) :
    AtEvery step A s es ↔ AtEvery step B s es := by
  -- at every event the state before it has the invariant
  have hreached : ∀ pre e post, es = pre ++ e :: post → ∀ t, pre.foldlM step s = some t →
      (A t e ↔ B t e) := by
    rintro pre e post rfl t ht
    refine hiff t e (foldlM_invariant hstep pre s t hs ?_ ht) ?_
    · exact fun e' he' => hall e' (List.mem_append_left _ he')
    · exact hall e (List.mem_append_right _ List.mem_cons_self)
  refine ⟨?_, ?_⟩
  · intro h pre e post hes t ht
    exact (hreached pre e post hes t ht).mp (h pre e post hes t ht)
  · intro h pre e post hes t ht
    exact (hreached pre e post hes t ht).mpr (h pre e post hes t ht)

end Partial

end Lib
