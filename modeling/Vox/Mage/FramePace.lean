import Vox.Mage.MemQueue
import Vox.Mage.VocoderReset

/-!
# MAGE — the pace of frames

`updateSamples` is called for every sample. It counts the calls, and every `hopLen` calls a
frame slot comes, in which the vocoder takes a frame if one is queued. `setSpeed` sets
`hopLen`, at any moment: the count goes on, and is compared with the new length.

* `calls` / `spoken` / `queued` — what has happened in a run: which of the calls were slots,
  the frames that the vocoder took, and those that were queued.
* `sampleCount_run` — the counter counts the calls since the last slot.
* `frame_pace` — what follows for every interleaving: the bounds of `hopLen`, where the slots
  are, and what is taken in them.
-/

namespace Vox.Mage

open Lib

/-- What `setSpeed` and `updateSamples` read and set of a `Mage`. -/
structure Pace (K : Type*) where
  sampleCount : Int
  hopLen : Int
  frameQueue : MemQueue (Frame K)
  vocoder : Vocoder K

namespace Pace

variable {K : Type*} [Field K]

instance : Inhabited (Frame K) := ⟨⟨fun _ _ => 0, false⟩⟩

/-- `Mage::init`, with the vocoder it creates. -/
def init (vocoder : Vocoder K) : Pace K where
  sampleCount := 0
  hopLen := defaultFrameRate
  frameQueue := MemQueue.new maxFrameQueueLen
  vocoder := vocoder

/-- The next `updateSamples` hits the hop length. -/
def AtSlot (p : Pace K) : Prop := p.sampleCount ≥ p.hopLen - 1

instance (p : Pace K) : Decidable p.AtSlot := by
  unfold AtSlot
  infer_instance

variable [LinearOrder K]

/-- `Mage::updateSamples`. -/
def updateSamples (libm : Libm K) (p : Pace K) : Pace K :=
  if p.AtSlot then
    let p :=
      if !p.frameQueue.isEmpty then
        let frame := p.frameQueue.get
        { p with
          vocoder := p.vocoder.prepare libm frame frame.voiced false
          frameQueue := p.frameQueue.pop 1 }
      else p
    -- and reset the sample count for next time
    { p with sampleCount := 0 }
  else { p with sampleCount := p.sampleCount + 1 }

/-- A frame of the generator, which waits while the queue is full. -/
def pushFrame (p : Pace K) (frame : Frame K) : Pace K :=
  if p.frameQueue.isFull then p
  else { p with frameQueue := (p.frameQueue.writeNext frame).push 1 }

/-- `Mage::setSpeed`. -/
def setSpeed [FloorRing K] (p : Pace K) (speed : K) (action : Int) : Pace K :=
  let hopLen :=
    if action = overwrite then truncate speed
    else if action = shift then truncate ((p.hopLen : K) + speed)
    else if action = scale then truncate ((p.hopLen : K) * speed)
    else defaultFrameRate
  let hopLen := if hopLen < 1 then 1 else hopLen
  { p with
    hopLen := if hopLen > defaultFrameRate * 20 then defaultFrameRate * 20 else hopLen }

inductive Event (K : Type*)
  | setSpeed (speed : K) (action : Int)
  | updateSamples
  | pushFrame (frame : Frame K)

def step [FloorRing K] (libm : Libm K) (p : Pace K) : Event K → Pace K
  | .setSpeed speed action => p.setSpeed speed action
  | .updateSamples => p.updateSamples libm
  | .pushFrame frame => p.pushFrame frame

def run [FloorRing K] (libm : Libm K) (p : Pace K) (es : List (Event K)) : Pace K :=
  es.foldl (step libm) p

-- ---------------------------------------------------------------------------
-- What a run has done
-- ---------------------------------------------------------------------------

/-- Whether an event is a call of `updateSamples`, and if so, whether it is a slot. -/
def slotOf (p : Pace K) : Event K → Option Bool
  | .updateSamples => some (decide p.AtSlot)
  | _ => none

/-- The frame that the vocoder takes. -/
def spokenBy (p : Pace K) : Event K → Option (Frame K)
  | .updateSamples => if p.AtSlot ∧ !p.frameQueue.isEmpty then some p.frameQueue.get else none
  | _ => none

/-- The frame that is queued. -/
def queuedBy (p : Pace K) : Event K → Option (Frame K)
  | .pushFrame frame => if p.frameQueue.isFull then none else some frame
  | _ => none

/-- What the events of a run give, in order. -/
def trace [FloorRing K] (libm : Libm K) {α : Type*} (out : Pace K → Event K → Option α) :
    Pace K → List (Event K) → List α
  | _, [] => []
  | p, e :: es => (out p e).toList ++ trace libm out (step libm p e) es

/-- The calls of `updateSamples`: which of them were slots. -/
def calls [FloorRing K] (libm : Libm K) (p : Pace K) (es : List (Event K)) : List Bool :=
  trace libm slotOf p es

/-- The frames that the vocoder took. -/
def spoken [FloorRing K] (libm : Libm K) (p : Pace K) (es : List (Event K)) : List (Frame K) :=
  trace libm spokenBy p es

/-- The frames that were queued. -/
def queued [FloorRing K] (libm : Libm K) (p : Pace K) (es : List (Event K)) : List (Frame K) :=
  trace libm queuedBy p es

/-- The calls since the last slot. -/
def sinceSlot (calls : List Bool) : Nat := (calls.reverse.takeWhile (! ·)).length

@[simp] theorem sinceSlot_append_true (bs : List Bool) : sinceSlot (bs ++ [true]) = 0 := by
  simp [sinceSlot]

@[simp] theorem sinceSlot_append_false (bs : List Bool) :
    sinceSlot (bs ++ [false]) = sinceSlot bs + 1 := by
  simp [sinceSlot]

section Runs

variable [FloorRing K] (libm : Libm K) (p : Pace K)

theorem run_snoc (es : List (Event K)) (e : Event K) :
    run libm p (es ++ [e]) = step libm (run libm p es) e := by
  rw [run, List.foldl_append]
  rfl

theorem trace_snoc {α : Type*} (out : Pace K → Event K → Option α) (es : List (Event K))
    (e : Event K) :
    trace libm out p (es ++ [e]) = trace libm out p es ++ (out (run libm p es) e).toList := by
  induction es generalizing p with
  | nil => simp [trace, run]
  | cons e' es ih =>
    rw [List.cons_append, trace, trace, ih, List.append_assoc]
    rfl

-- ---------------------------------------------------------------------------
-- The hop length and the counter
-- ---------------------------------------------------------------------------

/-- The bounds that `setSpeed` keeps. -/
def Bounded (p : Pace K) : Prop := 1 ≤ p.hopLen ∧ p.hopLen ≤ 20 * defaultFrameRate

variable {p}

/-- The hop length is clamped, whatever speed is asked for. -/
theorem setSpeed_bounded (speed : K) (action : Int) : (p.setSpeed speed action).Bounded := by
  unfold Bounded setSpeed defaultFrameRate
  dsimp only
  constructor
  -- whatever the action made of the length, the last two tests bound it
  · split <;> split <;> omega
  · split <;> omega

omit [FloorRing K] in
/-- A sample does not change the hop length. -/
theorem updateSamples_hopLen : (p.updateSamples libm).hopLen = p.hopLen := by
  rw [updateSamples]
  split
  · split <;> rfl
  · rfl

omit [FloorRing K] in
/-- A sample counts up, or starts again at a slot. -/
theorem updateSamples_sampleCount :
    (p.updateSamples libm).sampleCount = if p.AtSlot then 0 else p.sampleCount + 1 := by
  rw [updateSamples]
  split
  · rfl
  · rfl

omit [Field K] [LinearOrder K] [FloorRing K] in
/-- A frame does not change the hop length. -/
theorem pushFrame_hopLen (frame : Frame K) : (p.pushFrame frame).hopLen = p.hopLen := by
  rw [pushFrame]
  split <;> rfl

omit [Field K] [LinearOrder K] [FloorRing K] in
theorem pushFrame_sampleCount (frame : Frame K) :
    (p.pushFrame frame).sampleCount = p.sampleCount := by
  rw [pushFrame]
  split <;> rfl

/-- The bounds hold after each event. -/
theorem Bounded.step (h : p.Bounded) (e : Event K) : (step libm p e).Bounded := by
  cases e with
  | setSpeed speed action => exact setSpeed_bounded speed action
  | updateSamples =>
    show 1 ≤ (p.updateSamples libm).hopLen ∧ (p.updateSamples libm).hopLen ≤ _
    rw [updateSamples_hopLen]
    exact h
  | pushFrame frame =>
    show 1 ≤ (p.pushFrame frame).hopLen ∧ (p.pushFrame frame).hopLen ≤ _
    rw [pushFrame_hopLen]
    exact h

/-- The counter after a list of events. -/
theorem sampleCount_snoc (es : List (Event K)) (e : Event K) :
    (run libm p (es ++ [e])).sampleCount =
      match slotOf (run libm p es) e with
      | some true => 0
      | some false => (run libm p es).sampleCount + 1
      | none => (run libm p es).sampleCount := by
  rw [run_snoc]
  cases e with
  | setSpeed speed action => rfl
  | updateSamples =>
    show ((run libm p es).updateSamples libm).sampleCount = _
    rw [updateSamples_sampleCount, slotOf]
    by_cases hslot : (run libm p es).AtSlot <;> simp [hslot]
  | pushFrame frame => exact pushFrame_sampleCount frame

/-- **The counter counts the calls since the last slot**, whatever the speed was meanwhile. -/
theorem sampleCount_run (hstart : p.sampleCount = 0) (es : List (Event K)) :
    (run libm p es).sampleCount = sinceSlot (calls libm p es) := by
  induction es using List.reverseRecOn with
  | nil => exact hstart
  | append_singleton es e ih =>
    rw [sampleCount_snoc, calls, trace_snoc]
    rw [calls] at ih
    cases hslot : slotOf (run libm p es) e with
    | none => simpa using ih
    | some slot =>
      cases slot with
      | false => simp [ih]
      | true => simp

-- ---------------------------------------------------------------------------
-- A constant speed
-- ---------------------------------------------------------------------------

/-- The last remainder before a multiple. -/
theorem dvd_succ_iff {h : Int} (hpos : 0 < h) (n : Int) : h ∣ n + 1 ↔ h - 1 ≤ n % h := by
  have hnonneg := Int.emod_nonneg n hpos.ne'
  have hlt := Int.emod_lt_of_pos n hpos
  -- only the last remainder gives 0 when 1 is added
  rw [Int.dvd_iff_emod_eq_zero, ← Int.emod_add_emod]
  constructor
  · intro hzero
    by_contra hle
    rw [Int.emod_eq_of_lt (by omega) (by omega)] at hzero
    omega
  · intro hle
    rw [show n % h + 1 = h by omega, Int.emod_self]

/-- Between two multiples the remainder counts up. -/
theorem succ_emod_of_not_dvd {h : Int} (hpos : 0 < h) {n : Int} (hn : ¬ h ∣ n + 1) :
    (n + 1) % h = n % h + 1 := by
  have hnonneg := Int.emod_nonneg n hpos.ne'
  rw [dvd_succ_iff hpos] at hn
  rw [← Int.emod_add_emod, Int.emod_eq_of_lt (by omega) (by omega)]

/-- At a constant hop length the counter is the remainder of the number of calls, and every
call whose number the hop length divides is a slot. -/
theorem constant_run {h : Int} (hpos : 0 < h) (hstart : p.sampleCount = 0) (es : List (Event K))
    (hconst : ∀ before, before <+: es → (run libm p before).hopLen = h) :
    (run libm p es).sampleCount = ((calls libm p es).length : Int) % h ∧
      calls libm p es =
        (List.range (calls libm p es).length).map fun i : Nat => decide (h ∣ (i : Int) + 1) := by
  induction es using List.reverseRecOn with
  | nil => exact ⟨by simp [run, calls, trace, hstart], rfl⟩
  | append_singleton es e ih =>
    -- the events before are a prefix, so the length was constant there too
    have hbefore : ∀ before, before <+: es → (run libm p before).hopLen = h :=
      fun before hpre => hconst before (hpre.trans ⟨[e], rfl⟩)
    obtain ⟨hcount, hcalls⟩ := ih hbefore
    rw [sampleCount_snoc, calls, trace_snoc]
    rw [calls] at hcount hcalls
    set n := (trace libm slotOf p es).length with hn
    cases hslot : slotOf (run libm p es) e with
    | none => simpa using ⟨hcount, hcalls⟩
    | some slot =>
      -- the call is a slot when the hop length divides its number
      have hat : slot = decide (h ∣ (n : Int) + 1) := by
        cases e with
        | setSpeed speed action => cases hslot
        | pushFrame frame => cases hslot
        | updateSamples =>
          obtain rfl := Option.some.inj hslot
          rw [decide_eq_decide, AtSlot, hcount, hbefore es (List.prefix_refl es),
            dvd_succ_iff hpos]
      simp only [Option.toList_some, List.length_append, List.length_singleton, ← hn,
        List.range_succ, List.map_append, List.map_cons, List.map_nil, ← hat]
      rw [← hcalls]
      refine ⟨?_, rfl⟩
      cases slot with
      | true =>
        have hdvd : h ∣ (n : Int) + 1 := of_decide_eq_true hat.symm
        exact (Int.emod_eq_zero_of_dvd hdvd).symm
      | false =>
        have hndvd : ¬ h ∣ (n : Int) + 1 := of_decide_eq_false hat.symm
        show (run libm p es).sampleCount + 1 = ((n : Int) + 1) % h
        rw [hcount, succ_emod_of_not_dvd hpos hndvd]

-- ---------------------------------------------------------------------------
-- Frames
-- ---------------------------------------------------------------------------

/-- The queue of frames stays as it should. -/
theorem wf_run (hwf : p.frameQueue.Wf) (es : List (Event K)) :
    (run libm p es).frameQueue.Wf := by
  refine foldl_invariant (I := fun p : Pace K => p.frameQueue.Wf) ?_ es p hwf
  intro p e hwf
  cases e with
  | setSpeed speed action => exact hwf
  | updateSamples =>
    show (p.updateSamples libm).frameQueue.Wf
    rw [updateSamples]
    split
    · split
      -- a frame is popped only when there is one
      · rename_i hitems
        rw [Bool.not_eq_true', Bool.eq_false_iff, ne_eq, MemQueue.isEmpty_iff] at hitems
        exact MemQueue.wf_pop hwf (by omega)
      · exact hwf
    · exact hwf
  | pushFrame frame =>
    show (p.pushFrame frame).frameQueue.Wf
    rw [pushFrame]
    split
    · exact hwf
    -- and pushed only when there is room
    · rename_i hroom
      rw [MemQueue.isFull_iff, not_le] at hroom
      refine MemQueue.wf_push (MemQueue.wf_writeNext hwf frame) ?_
      simpa using hroom

/-- One event takes from the queue what the vocoder takes, and adds what is queued. -/
theorem items_step (hwf : p.frameQueue.Wf) (e : Event K) :
    (spokenBy p e).toList ++ (step libm p e).frameQueue.items =
      p.frameQueue.items ++ (queuedBy p e).toList := by
  -- a slot takes the first frame, a push adds one behind the last
  cases e with
  | setSpeed speed action => simp [spokenBy, queuedBy, step, setSpeed]
  | updateSamples =>
    show (spokenBy p .updateSamples).toList ++ (p.updateSamples libm).frameQueue.items = _
    rw [updateSamples, spokenBy]
    by_cases hslot : p.AtSlot
    · by_cases hitems : p.frameQueue.isEmpty = true
      · simp [hslot, hitems, queuedBy]
      · have hne : 0 < p.frameQueue.getNumOfItems := by
          rw [MemQueue.isEmpty_iff] at hitems
          omega
        simp only [hslot, hitems, queuedBy, Option.toList_none, List.append_nil, Bool.not_false,
          and_self, if_true, Option.toList_some]
        rw [MemQueue.items_pop hwf hne]
        exact (MemQueue.items_eq_cons hwf hne).symm
    · simp [hslot, queuedBy]
  | pushFrame frame =>
    show (spokenBy p (.pushFrame frame)).toList ++ (p.pushFrame frame).frameQueue.items = _
    rw [pushFrame, queuedBy]
    split
    · simp [spokenBy]
    · rename_i hroom
      rw [MemQueue.isFull_iff, not_le] at hroom
      have hnext := MemQueue.next_writeNext hwf frame
      rw [MemQueue.items_push (MemQueue.wf_writeNext hwf frame),
        MemQueue.items_writeNext hwf hroom, hnext]
      rfl

/-- **No frame is lost**: what was queued is what the vocoder took and what is still there. -/
theorem items_run (hwf : p.frameQueue.Wf) (es : List (Event K)) :
    spoken libm p es ++ (run libm p es).frameQueue.items =
      p.frameQueue.items ++ queued libm p es := by
  induction es using List.reverseRecOn with
  | nil => simp [spoken, queued, trace, run]
  | append_singleton es e ih =>
    have hstep := items_step libm (wf_run libm hwf es) e
    rw [spoken, queued] at ih ⊢
    rw [trace_snoc, trace_snoc, run_snoc, List.append_assoc, hstep, ← List.append_assoc, ih,
      List.append_assoc]

/-- The vocoder has taken the frames one after the other. -/
theorem vocoder_run (es : List (Event K)) :
    (run libm p es).vocoder =
      (spoken libm p es).foldl (fun v frame => v.prepare libm frame frame.voiced false)
        p.vocoder := by
  induction es using List.reverseRecOn with
  | nil => rfl
  | append_singleton es e ih =>
    rw [spoken] at ih ⊢
    rw [trace_snoc, run_snoc, List.foldl_append, ← ih]
    cases e with
    | setSpeed speed action => rfl
    | updateSamples =>
      show ((run libm p es).updateSamples libm).vocoder = _
      rw [updateSamples, spokenBy]
      -- the vocoder gets a frame at a slot, if there is one
      by_cases hslot : (run libm p es).AtSlot
      · by_cases hitems : (run libm p es).frameQueue.isEmpty = true
        · simp [hslot, hitems]
        · simp [hslot, hitems]
      · simp [hslot]
    | pushFrame frame =>
      show ((run libm p es).pushFrame frame).vocoder = _
      rw [pushFrame]
      split <;> rfl

/-- A slot finds a frame. -/
def Fed (p : Pace K) : Event K → Prop
  | .updateSamples => p.AtSlot → p.frameQueue.isEmpty = false
  | _ => True

/-- Where every slot finds a frame, it takes one. -/
theorem length_spoken (es : List (Event K)) (hfed : StepsMeet (step libm) Fed p es) :
    (spoken libm p es).length = (calls libm p es).count true := by
  induction es generalizing p with
  | nil => rfl
  -- on the first event: the rest of the run is fed from the state after it
  | cons e es ih =>
    have hrest := ih hfed.2
    rw [spoken, calls] at hrest ⊢
    rw [trace, trace, List.length_append, List.count_append, hrest, Nat.add_right_cancel_iff]
    cases e with
    | setSpeed speed action => rfl
    | updateSamples =>
      have hfed : p.AtSlot → p.frameQueue.isEmpty = false := hfed.1
      rw [spokenBy, slotOf]
      by_cases hslot : p.AtSlot
      · simp [hslot, hfed hslot]
      · simp [hslot]
    | pushFrame frame => rfl

-- ---------------------------------------------------------------------------
-- The pace
-- ---------------------------------------------------------------------------

/--
**Speed sets the pace of frames.** After any events since MAGE was initialised:
the hop length is in its bounds; the next call of `updateSamples` is a slot exactly when, with
it, there have been as many calls since the last slot as the hop length now is; from a slot
on, at a constant hop length `h`, every `h`-th call is a slot; what was queued was taken in
its order, by nothing but slots, and by each slot one frame where it found one. -/
theorem frame_pace (vocoder : Vocoder K) (es : List (Event K)) :
    let start := init vocoder
    let p := run libm start es
    (1 ≤ p.hopLen ∧ p.hopLen ≤ 20 * defaultFrameRate) ∧
      (p.AtSlot ↔ p.hopLen ≤ sinceSlot (calls libm start es) + 1) ∧
      (sinceSlot (calls libm start es) = 0 → ∀ later h,
        (∀ before, before <+: later → (run libm p before).hopLen = h) →
        calls libm p later =
          (List.range (calls libm p later).length).map fun i : Nat => decide (h ∣ (i : Int) + 1)) ∧
      spoken libm start es ++ p.frameQueue.items = queued libm start es ∧
      p.vocoder = (spoken libm start es).foldl
        (fun v frame => v.prepare libm frame frame.voiced false) vocoder ∧
      (StepsMeet (step libm) Fed start es →
        (spoken libm start es).length = (calls libm start es).count true) := by
  intro start p
  have hbounded : ∀ es, (run libm start es).Bounded := fun es =>
    foldl_invariant (I := Bounded) (fun p e h => h.step libm e) es start
      ⟨by show (1 : Int) ≤ 240; decide, by show (240 : Int) ≤ 20 * 240; decide⟩
  have hcount : p.sampleCount = sinceSlot (calls libm start es) := sampleCount_run libm rfl es
  refine ⟨hbounded es, ?_, ?_, ?_, vocoder_run libm es, length_spoken libm es⟩
  · rw [AtSlot, hcount]
    omega
  · intro hslot later h hconst
    -- the constant length is the one the run starts with, and that is bounded
    have hpos : 0 < h := by
      have hhop : p.hopLen = h := hconst [] (List.nil_prefix)
      rw [← hhop]
      exact (hbounded es).1
    exact (constant_run libm hpos (by omega) later hconst).2
  · have hitems := items_run libm (p := start)
      (MemQueue.wf_new (show 0 < maxFrameQueueLen by decide)) es
    rwa [show start.frameQueue.items = [] from MemQueue.items_new _, List.nil_append] at hitems

end Runs

end Pace

end Vox.Mage
