import Vox.Lib.Run
import Vox.Mage.LabelQueue

/-!
# MAGE — the label queue as Mage uses it

`Mage` guards the operations of `LabelQueue`: `pushLabel` asks `isFull` first,
`popLabel` asks `isEmpty`, and `clearLabels` starts over at the front of the
array, wherever the positions were. `LabelCalls` is a `Mage` under any sequence
of the three calls, with a record of what has become of each label that was
accepted.

Main results:

* `Inv.step` — one call keeps the queue well formed and the record complete.
* `labels_fifo` — after every sequence of calls the queue is a bounded list:
  labels leave it in the order in which they came, popped or discarded, and each
  of the three calls does to the list what it should.
-/

namespace Vox.Mage

open Lib

/-- A call to the label side of `Mage`. -/
inductive LabelCall
  | pushLabel (label : Label)
  | popLabel
  | clearLabels
  deriving DecidableEq, Repr

/-- The label side of `Mage`, and what its calls have done so far. -/
structure LabelCalls where
  input : LabelInput
  /-- The labels that `pushLabel` has not refused. -/
  accepted : List Label
  /-- The labels that `popLabel` has returned, as they were queued. -/
  popped : List Label
  /-- The labels that have left the queue, and whether they were popped. -/
  gone : List (Label × Bool)
  deriving DecidableEq, Repr

namespace LabelCalls

/-- A queue of `size` labels, before the first call. -/
def start (size : Nat) (label : Label) (labelSpeed : ℚ) : LabelCalls :=
  ⟨⟨LabelQueue.new size, label, labelSpeed⟩, [], [], []⟩

/-- The labels that are waiting. -/
def waiting (c : LabelCalls) : List Label := c.input.labelQueue.labels

def step (c : LabelCalls) : LabelCall → LabelCalls
  | .pushLabel label =>
    { c with
      input := c.input.pushLabel label
      accepted := if c.input.labelQueue.isFull then c.accepted else c.accepted ++ [label] }
  | .popLabel =>
    if c.input.popLabel.1 then
      { c with
        input := c.input.popLabel.2
        popped := c.popped ++ [c.input.labelQueue.pop.1]
        gone := c.gone ++ [(c.input.labelQueue.pop.1, true)] }
    else { c with input := c.input.popLabel.2 }
  | .clearLabels =>
    { c with
      input := c.input.clearLabels.2
      gone := c.gone ++ c.waiting.map fun label => (label, false) }

/-- The state after a list of calls. -/
def run (size : Nat) (label : Label) (labelSpeed : ℚ) (calls : List LabelCall) : LabelCalls :=
  calls.foldl step (start size label labelSpeed)

/-- The queue is well formed, and each accepted label has been popped, has been
discarded or is waiting, in the order of acceptance. -/
structure Inv (size : Nat) (c : LabelCalls) : Prop where
  wf : c.input.labelQueue.Wf
  size_eq : c.input.labelQueue.queue.length = size
  accepted_eq : c.accepted = c.gone.map Prod.fst ++ c.waiting
  popped_eq : c.popped = (c.gone.filter Prod.snd).map Prod.fst

variable {size : Nat} {c : LabelCalls}

-- ---------------------------------------------------------------------------
-- One call
-- ---------------------------------------------------------------------------

theorem Inv.isFull_iff (h : c.Inv size) :
    c.input.labelQueue.isFull = true ↔ c.waiting.length = size := by
  have hcount : c.input.labelQueue.nOfLabels ≤ c.input.labelQueue.queue.length :=
    h.wf.ring.count_le
  rw [LabelQueue.isFull_iff, waiting, LabelQueue.length_labels, h.size_eq]
  rw [h.size_eq] at hcount
  omega

/-- A push where there is room: the new label waits last. -/
theorem Inv.labels_push (h : c.Inv size) (hfull : ¬ c.input.labelQueue.isFull = true)
    (label : Label) :
    (c.input.labelQueue.push label).labels = c.input.labelQueue.labels ++ [label] := by
  have hroom : c.input.labelQueue.nOfLabels < c.input.labelQueue.queue.length := by
    rw [LabelQueue.isFull_iff, LabelQueue.length_labels] at hfull
    omega
  exact LabelQueue.labels_push h.wf hroom label

theorem popLabel_eq_false_iff (c : LabelCalls) : c.input.popLabel.1 = false ↔ c.waiting = [] := by
  rw [waiting, ← LabelQueue.isEmpty_iff, LabelInput.popLabel]
  split
  · simp [*]
  · simp [*]

/-- A pop of a label that waits: the oldest one leaves. -/
theorem Inv.popLabel_eq (h : c.Inv size) {label : Label} {rest : List Label}
    (hwaiting : c.waiting = label :: rest) :
    c.input.labelQueue.pop.1 = label ∧ c.input.labelQueue.pop.2.labels = rest ∧
      c.input.popLabel = (true, { c.input with
        labelQueue := c.input.labelQueue.pop.2
        label := label.setSpeed c.input.labelSpeed }) := by
  have hne : 0 < c.input.labelQueue.nOfLabels := by
    rw [← LabelQueue.length_labels, show c.input.labelQueue.labels = _ from hwaiting]
    simp
  have hcons := LabelQueue.labels_pop h.wf hne
  rw [show c.input.labelQueue.labels = _ from hwaiting] at hcons
  obtain ⟨hhead, hrest⟩ := List.cons.inj hcons
  refine ⟨hhead.symm, hrest.symm, ?_⟩
  have hempty : ¬ c.input.labelQueue.isEmpty = true := by
    rw [LabelQueue.isEmpty_iff, show c.input.labelQueue.labels = _ from hwaiting]
    simp
  rw [LabelInput.popLabel, if_neg hempty, ← hhead]

/-- Starting over at the front leaves a well-formed queue, wherever it was. -/
theorem wf_clear {q : LabelQueue} (h : q.Wf) : q.clear.2.Wf where
  ring := ⟨h.ring.pos, h.ring.pos, Nat.zero_le _, (Nat.zero_mod _).symm⟩
  size_lt := h.size_lt

theorem labels_clear (q : LabelQueue) : q.clear.2.labels = [] := by
  rw [← List.length_eq_zero_iff, LabelQueue.length_labels]
  rfl

/-- The query that `clear` returns is that of the oldest label. -/
theorem clear_query {q : LabelQueue} (h : q.Wf) {label : Label} {rest : List Label}
    (hlabels : q.labels = label :: rest) : q.clear.1 = label.query := by
  have hne : 0 < q.nOfLabels := by
    rw [← LabelQueue.length_labels, hlabels]
    simp
  have hcons := LabelQueue.labels_pop h hne
  rw [hlabels] at hcons
  rw [(List.cons.inj hcons).1]
  rfl

/-- One call keeps the queue well formed and the record complete. -/
theorem Inv.step (h : c.Inv size) (call : LabelCall) : (c.step call).Inv size := by
  cases call with
  | pushLabel label =>
    obtain ⟨hwf, hlength, -⟩ := LabelInput.pushLabel_labels h.wf label
    refine ⟨hwf, hlength.trans h.size_eq, ?_, h.popped_eq⟩
    by_cases hfull : c.input.labelQueue.isFull = true
    · -- refused: nothing changes
      simpa [LabelCalls.step, LabelInput.pushLabel, waiting, hfull] using h.accepted_eq
    · have hpush := h.labels_push hfull label
      have haccepted := h.accepted_eq
      rw [waiting] at haccepted
      simp [LabelCalls.step, LabelInput.pushLabel, waiting, hfull, hpush, haccepted]
  | popLabel =>
    cases hwaiting : c.waiting with
    | nil =>
      -- nothing to pop: nothing changes
      have hfalse : c.input.popLabel.1 = false := (popLabel_eq_false_iff c).mpr hwaiting
      have hsame : c.input.popLabel.2 = c.input := by
        have hempty : c.input.labelQueue.isEmpty = true :=
          (LabelQueue.isEmpty_iff _).mpr hwaiting
        rw [LabelInput.popLabel, if_pos hempty]
      rw [LabelCalls.step, hfalse, hsame]
      exact h
    | cons label rest =>
      obtain ⟨hlabel, hrest, hpop⟩ := h.popLabel_eq hwaiting
      have hne : 0 < c.input.labelQueue.nOfLabels := by
        rw [← LabelQueue.length_labels, show c.input.labelQueue.labels = _ from hwaiting]
        simp
      have haccepted := h.accepted_eq
      rw [hwaiting] at haccepted
      rw [LabelCalls.step, hpop, if_pos rfl]
      -- the oldest label goes over to the popped ones
      refine ⟨LabelQueue.wf_pop h.wf hne, h.size_eq, ?_, ?_⟩
      · rw [haccepted, hlabel]
        show _ = _ ++ c.input.labelQueue.pop.2.labels
        simp [hrest]
      · simp [h.popped_eq]
  | clearLabels =>
    refine ⟨wf_clear h.wf, h.size_eq, ?_, ?_⟩
    · -- those that wait go over to the discarded ones
      show c.accepted = (c.gone ++ c.waiting.map fun label => (label, false)).map Prod.fst
        ++ c.input.labelQueue.clear.2.labels
      rw [labels_clear, h.accepted_eq]
      simp [Function.comp_def]
    · show c.popped
        = ((c.gone ++ c.waiting.map fun label => (label, false)).filter Prod.snd).map Prod.fst
      rw [List.filter_append, h.popped_eq]
      simp [List.filter_map, Function.comp_def]

-- ---------------------------------------------------------------------------
-- Sequences of calls
-- ---------------------------------------------------------------------------

theorem inv_start (hpos : 0 < size) (hlt : size < uintMod) (label : Label) (labelSpeed : ℚ) :
    (start size label labelSpeed).Inv size where
  wf := LabelQueue.wf_new hpos hlt
  size_eq := by simp [start, LabelQueue.new]
  accepted_eq := by simp [start, waiting, LabelQueue.labels_new]
  popped_eq := rfl

theorem inv_run (hpos : 0 < size) (hlt : size < uintMod) (label : Label) (labelSpeed : ℚ)
    (calls : List LabelCall) : (run size label labelSpeed calls).Inv size :=
  foldl_invariant (I := fun c : LabelCalls => c.Inv size) (fun _ call h => h.step call) calls _
    (inv_start hpos hlt label labelSpeed)

/--
**The label queue is a bounded FIFO that refuses when full.** After every
sequence of calls, for every size that an `unsigned int` has:

* the labels accepted so far are those that have left the queue and those that
  wait, in order, and the labels popped are those that left it without being
  discarded;
* a push is refused exactly when `size` labels wait, and then changes nothing;
* a pop returns false exactly when none waits, and then changes nothing, and
  otherwise makes the oldest label the current one;
* a clear leaves none waiting, and returns the query of the oldest one;
* the counter is the number of labels that wait, and the positions stay inside. -/
theorem labels_fifo (size : Nat) (hpos : 0 < size) (hlt : size < uintMod) (label : Label)
    (labelSpeed : ℚ) (calls : List LabelCall) :
    let c := run size label labelSpeed calls
    (c.accepted = c.gone.map Prod.fst ++ c.waiting ∧
        c.popped = (c.gone.filter Prod.snd).map Prod.fst) ∧
      (∀ new, (c.waiting.length = size → c.step (.pushLabel new) = c) ∧
        (c.waiting.length ≠ size →
          (c.step (.pushLabel new)).waiting = c.waiting ++ [new] ∧
            (c.step (.pushLabel new)).accepted = c.accepted ++ [new])) ∧
      ((c.input.popLabel.1 = false ↔ c.waiting = []) ∧
        (c.waiting = [] → c.step .popLabel = c) ∧
        ∀ oldest rest, c.waiting = oldest :: rest →
          (c.step .popLabel).waiting = rest ∧
            (c.step .popLabel).popped = c.popped ++ [oldest] ∧
            (c.step .popLabel).input.label = oldest.setSpeed c.input.labelSpeed) ∧
      ((c.step .clearLabels).waiting = [] ∧
        (c.step .clearLabels).gone = c.gone ++ c.waiting.map (·, false) ∧
        ∀ oldest rest, c.waiting = oldest :: rest → c.input.clearLabels.1 = oldest.query) ∧
      c.input.labelQueue.nOfLabels = c.waiting.length ∧ c.waiting.length ≤ size ∧
      c.input.labelQueue.read < size ∧ c.input.labelQueue.write < size := by
  intro c
  -- what the calls so far have kept
  have h : c.Inv size := inv_run hpos hlt label labelSpeed calls
  have hcount : c.input.labelQueue.nOfLabels = c.waiting.length :=
    (LabelQueue.length_labels _).symm
  have hring := h.wf.ring
  have hsize : c.input.labelQueue.toRing.slots.length = size := h.size_eq
  refine ⟨⟨h.accepted_eq, h.popped_eq⟩, ?_, ⟨popLabel_eq_false_iff c, ?_, ?_⟩,
    ⟨labels_clear _, rfl, ?_⟩, hcount, ?_, ?_, ?_⟩
  · intro new
    refine ⟨?_, ?_⟩
    · intro hwaiting
      have hfull := h.isFull_iff.mpr hwaiting
      simp [step, LabelInput.pushLabel, hfull]
    · intro hwaiting
      have hfull : ¬ c.input.labelQueue.isFull = true := fun hfull =>
        hwaiting (h.isFull_iff.mp hfull)
      have hpush := h.labels_push hfull new
      simp [step, LabelInput.pushLabel, waiting, hfull, hpush]
  · intro hwaiting
    have hempty : c.input.labelQueue.isEmpty = true := (LabelQueue.isEmpty_iff _).mpr hwaiting
    simp [step, LabelInput.popLabel, hempty]
  · intro oldest rest hwaiting
    obtain ⟨holdest, hrest, hpop⟩ := h.popLabel_eq hwaiting
    rw [step, hpop, if_pos rfl]
    exact ⟨hrest, by rw [holdest], rfl⟩
  · intro oldest rest hwaiting
    exact clear_query h.wf hwaiting
  · rw [← hcount, ← hsize]
    exact hring.count_le
  · rw [← hsize]
    exact hring.read_lt
  · rw [← hsize]
    exact hring.write_lt

/-- A label that carries only a query. -/
def queryLabel (query : List Char) : Label := { (default : Label) with query := query }

/-- Three labels for a queue of two, a pop, a clear, and a label after it. -/
def fullAndCleared : List LabelCall :=
  [.pushLabel (queryLabel ['a']), .pushLabel (queryLabel ['b']), .pushLabel (queryLabel ['c']),
    .popLabel, .pushLabel (queryLabel ['d']), .clearLabels, .popLabel,
    .pushLabel (queryLabel ['e']), .popLabel]

/-- The third label is refused, and the second and the fourth are discarded. -/
theorem labels_fifo_two :
    (run 2 default 1 fullAndCleared).accepted.map Label.query = [['a'], ['b'], ['d'], ['e']] ∧
      (run 2 default 1 fullAndCleared).popped.map Label.query = [['a'], ['e']] := by
  obtain ⟨⟨haccepted, hpopped⟩, -⟩ :=
    labels_fifo 2 (by decide) (by decide) default 1 fullAndCleared
  refine ⟨?_, ?_⟩
  · rw [haccepted]
    decide +kernel
  · rw [hpopped]
    decide +kernel

end LabelCalls

end Vox.Mage
