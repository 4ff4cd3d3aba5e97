import Mathlib.Data.List.GetD
import Vox.Lib.Lines
import Vox.Mage.LabelQueue

/-!
# SCMage — label buffers

`SCMage_pushLabelsFromSndBuf` reads the first channel of a sound buffer as a
text and pushes one label for each newline-terminated line of it. The loop
strides over the channels, stops at a NUL, keeps the first `maxStrLen`
characters of an over-long line and reuses one string buffer for all lines.

The state of the loop after the characters `p` is determined by `p` alone
(`LoopInv`): the string buffer holds the pending line, the labels built so far
are those of the terminated lines. One character preserves this
(`pushChar_inv`), so the whole scan does (`pushLoop_inv`).

Main results:

* `pushLabels_hands_over_lines` — the strings handed to `Label` are exactly
  the lines of the text, and the queue then drains to the first labels that fit.
* `pushLabels_fits_iff` — the copies made of a label stay inside their arrays
  exactly when no line starts with `maxStrLen` characters without a space.
-/

namespace Vox.SCMage

open Lib Vox.Mage

-- ---------------------------------------------------------------------------
-- Sound buffers
-- ---------------------------------------------------------------------------

/-- A sound buffer of the server: `frames` frames of `channels` samples each. -/
structure SndBuf where
  data : List ℚ
  channels : Nat
  frames : Nat
  samples : Nat
  channels_pos : 0 < channels
  samples_eq : samples = frames * channels
  data_length : data.length = samples

/-- The cast of a sample to `char`, by the byte it truncates to. -/
def toChar (x : ℚ) : Char := Char.ofNat (truncate x % 256).toNat

/-- The samples of the first channel. -/
def SndBuf.channel0 (buf : SndBuf) : List ℚ :=
  (List.range buf.frames).map fun i => buf.data.getD (i * buf.channels) 0

/-- The character code of a sample casts back to the character. -/
theorem toChar_toNat {c : Char} (h : c.toNat < 128) : toChar (c.toNat : ℚ) = c := by
  unfold toChar
  rw [truncate_natCast]
  rw [show ((c.toNat : Int) % 256).toNat = c.toNat by omega]
  exact Char.ofNat_toNat c

/-- `Buffer.loadCollection`, of the character codes of a label file: one frame
of one channel for each character. -/
def loadCollection (text : List Char) : SndBuf where
  data := text.map fun c => (c.toNat : ℚ)
  channels := 1
  frames := text.length
  samples := text.length
  channels_pos := Nat.one_pos
  samples_eq := (Nat.mul_one _).symm
  data_length := List.length_map _

/-- `loadCollection` stores the codes of the characters. -/
theorem channel0_loadCollection (text : List Char) :
    (loadCollection text).channel0 = text.map fun c => (c.toNat : ℚ) := by
  apply List.ext_getElem
  · simp [SndBuf.channel0, loadCollection]
  · intro i h1 h2
    rw [List.length_map] at h2
    simp [SndBuf.channel0, loadCollection, List.getD_eq_getElem?_getD, h2]

/-- A buffer whose first channel holds character codes reads as the characters. -/
theorem toChar_channel0 {buf : SndBuf} {text : List Char} (hcodes : ∀ c ∈ text, c.toNat < 128)
    (htext : buf.channel0 = text.map fun c => (c.toNat : ℚ)) :
    buf.channel0.map toChar = text := by
  rw [htext, List.map_map]
  conv => rhs; rw [← List.map_id text]
  exact List.map_congr_left fun c hc => toChar_toNat (hcodes c hc)

-- ---------------------------------------------------------------------------
-- Pushing the labels
-- ---------------------------------------------------------------------------

/-- One construction of a `Label`: the string it was given, the pieces its
parser copied and the label it became. -/
structure LabelEvent where
  labelString : List Char
  copied : Statics
  label : Label
  deriving DecidableEq, Repr

structure PushState where
  stringBuf : Vector Char maxStrLen
  charIndex : Nat
  mage : LabelInput
  statics : Statics
  built : List LabelEvent

/-- One character of the text, not a NUL. -/
def pushChar (s : PushState) (character : Char) : Option PushState :=
  let stringBuf :=
    if h : s.charIndex < maxStrLen then s.stringBuf.set s.charIndex character h
    else s.stringBuf
  if character = '\n' then
    let labelString := stringBuf.toList.take s.charIndex
    (Label.parseQuery s.statics labelString).map fun r =>
      { stringBuf := stringBuf
        charIndex := 0
        mage := s.mage.pushLabel r.1
        statics := r.2
        built := s.built ++ [⟨labelString, r.2, r.1⟩] }
  else
    some { s with
      stringBuf := stringBuf
      charIndex := if s.charIndex < maxStrLen then s.charIndex + 1 else s.charIndex }

def pushLoop (buf : SndBuf) (bufIndex : Nat) (s : PushState) : Option PushState :=
  if h : bufIndex < buf.samples then
    let character := toChar (buf.data.get ⟨bufIndex, by rw [buf.data_length]; exact h⟩)
    -- premature null-termination
    if character = '\x00' then some s
    else
      match pushChar s character with
      | none => none
      | some s => pushLoop buf (bufIndex + buf.channels) s
  else some s
termination_by buf.samples - bufIndex
decreasing_by
  have := buf.channels_pos
  omega

/-- `SCMage_pushLabelsFromSndBuf`, with what `RTAlloc` returned; the contents of
a fresh block are arbitrary. -/
def pushLabelsFromSndBuf (stringBuf : Option (Vector Char maxStrLen)) (buf : SndBuf)
    (mage : LabelInput) (statics : Statics) :
    Option (Bool × LabelInput × Statics × List LabelEvent) :=
  match stringBuf with
  | none => some (false, mage, statics, [])
  | some stringBuf =>
    (pushLoop buf 0 ⟨stringBuf, 0, mage, statics, []⟩).map fun s =>
      (true, s.mage, s.statics, s.built)

-- ---------------------------------------------------------------------------
-- What the text says
-- ---------------------------------------------------------------------------

/-- The part of a text that is read: up to its first NUL. -/
def labelText (text : List Char) : List Char := text.takeWhile (· != '\x00')

/-- The newline-terminated lines of a text, each cut to `maxStrLen` characters. -/
def labelLines (text : List Char) : List (List Char) :=
  (terminated '\n' (labelText text)).map (·.take maxStrLen)

/-- The labels of the lines, constructed in order. -/
def buildLabels (st : Statics) : List (List Char) → Option (List LabelEvent × Statics)
  | [] => some ([], st)
  | line :: lines => do
    let r ← Label.parseQuery st line
    let rest ← buildLabels r.2 lines
    some (⟨line, r.2, r.1⟩ :: rest.1, rest.2)

theorem buildLabels_concat {st st' : Statics} {lines : List (List Char)}
    {built : List LabelEvent} (h : buildLabels st lines = some (built, st'))
    {line : List Char} {label : Label} {st'' : Statics}
    (hline : Label.parseQuery st' line = some (label, st'')) :
    buildLabels st (lines ++ [line]) = some (built ++ [⟨line, st'', label⟩], st'') := by
  induction lines generalizing st built with
  | nil =>
    obtain ⟨rfl, rfl⟩ := Prod.mk.inj (Option.some.inj h)
    simp [buildLabels, hline]
  | cons l ls ih =>
    simp only [buildLabels, Option.bind_eq_bind, Option.bind_eq_some_iff] at h
    obtain ⟨r, hr, rest, hrest, h⟩ := h
    obtain ⟨rfl, rfl⟩ := Prod.mk.inj (Option.some.inj h)
    simp [buildLabels, hr, ih hrest]

theorem buildLabels_labelStrings {st st' : Statics} {lines : List (List Char)}
    {built : List LabelEvent} (h : buildLabels st lines = some (built, st')) :
    built.map (·.labelString) = lines := by
  induction lines generalizing st built with
  | nil =>
    obtain ⟨rfl, rfl⟩ := Prod.mk.inj (Option.some.inj h)
    rfl
  | cons l ls ih =>
    simp only [buildLabels, Option.bind_eq_bind, Option.bind_eq_some_iff] at h
    obtain ⟨r, hr, rest, hrest, h⟩ := h
    obtain ⟨rfl, rfl⟩ := Prod.mk.inj (Option.some.inj h)
    rw [List.map_cons, ih hrest]

/-- What is known of each construction: its copies are the pieces of its line,
the later ones fit an array, and the statics it leaves do. -/
theorem buildLabels_events {st st' : Statics} {lines : List (List Char)}
    {built : List LabelEvent} (hst : Label.StaticsFit st)
    (hlines : ∀ line ∈ lines, line.length ≤ maxStrLen)
    (h : buildLabels st lines = some (built, st')) :
    Label.StaticsFit st' ∧ ∀ e ∈ built,
      e.copied.first = e.labelString.takeWhile (· != ' ') ∧ Label.StaticsFit e.copied ∧
        ∃ st0, Label.parseQuery st0 e.labelString = some (e.label, e.copied) := by
  induction lines generalizing st built with
  | nil =>
    obtain ⟨rfl, rfl⟩ := Prod.mk.inj (Option.some.inj h)
    exact ⟨hst, fun e he => by simp at he⟩
  | cons l ls ih =>
    simp only [buildLabels, Option.bind_eq_bind, Option.bind_eq_some_iff] at h
    obtain ⟨⟨label, st1⟩, hr, rest, hrest, h⟩ := h
    obtain ⟨rfl, rfl⟩ := Prod.mk.inj (Option.some.inj h)
    obtain ⟨rfl, -⟩ := Label.parseQuery_eq_some hr
    -- what a line leaves behind fits as well, so the next one can be read
    have hfit := Label.staticsFit_splitQuery hst (hlines l (List.mem_cons_self ..))
    obtain ⟨hst', hev⟩ :=
      ih hfit (fun line hl => hlines line (List.mem_cons_of_mem _ hl)) hrest
    refine ⟨hst', ?_⟩
    intro e he
    rcases List.mem_cons.mp he with rfl | he
    · exact ⟨Label.splitQuery_first st l, hfit, st, hr⟩
    · exact hev e he

theorem length_le_of_mem_labelLines {text line : List Char} (h : line ∈ labelLines text) :
    line.length ≤ maxStrLen := by
  obtain ⟨l, -, rfl⟩ := List.mem_map.mp h
  exact List.length_take_le _ _

-- ---------------------------------------------------------------------------
-- The loop
-- ---------------------------------------------------------------------------

/-- The state of the loop after the characters `p` of the text. -/
structure LoopInv (m0 : LabelInput) (st0 : Statics) (p : List Char) (s : PushState) :
    Prop where
  line : s.stringBuf.toList.take s.charIndex = (pending '\n' p).take maxStrLen
  index : s.charIndex = min (pending '\n' p).length maxStrLen
  built : buildLabels st0 ((terminated '\n' p).map (·.take maxStrLen)) =
    some (s.built, s.statics)
  queue : s.mage = (s.built.map (·.label)).foldl LabelInput.pushLabel m0

theorem loopInv_start (stringBuf : Vector Char maxStrLen) (m0 : LabelInput) (st0 : Statics) :
    LoopInv m0 st0 [] ⟨stringBuf, 0, m0, st0, []⟩ where
  line := by simp
  index := by simp
  built := by simp [buildLabels]
  queue := rfl

/-- Writing a character at the end of the line does not touch the line. -/
theorem take_store (v : Vector Char maxStrLen) (i : Nat) (c : Char) :
    (if h : i < maxStrLen then v.set i c h else v).toList.take i = v.toList.take i := by
  split
  · rw [Vector.toList_set, List.take_set_of_le (le_refl i)]
  · rfl

/-- Writing a character at the end of the line and keeping it extends the line. -/
theorem take_store_succ (v : Vector Char maxStrLen) {i : Nat} (c : Char) (h : i < maxStrLen) :
    (v.set i c h).toList.take (i + 1) = v.toList.take i ++ [c] := by
  have hlen : v.toList.length = maxStrLen := v.length_toList
  rw [Vector.toList_set, List.take_succ_eq_append_getElem (by rw [List.length_set]; omega),
    List.take_set_of_le (le_refl i), List.getElem_set_self]

/-- **One character.** A newline builds a label from the pending line, any other
character is added to it. -/
theorem pushChar_inv {m0 : LabelInput} {st0 : Statics} {p : List Char} {s : PushState}
    (hst : Label.StaticsFit st0) (h : LoopInv m0 st0 p s) (c : Char) :
    ∃ s', pushChar s c = some s' ∧ LoopInv m0 st0 (p ++ [c]) s' := by
  have hfits : ∀ line ∈ (terminated '\n' p).map (·.take maxStrLen), line.length ≤ maxStrLen := by
    intro line hl
    obtain ⟨l, -, rfl⟩ := List.mem_map.mp hl
    exact List.length_take_le _ _
  unfold pushChar
  by_cases hc : c = '\n'
  · -- the newline: the pending line is terminated
    subst hc
    obtain ⟨hst', -⟩ := buildLabels_events hst hfits h.built
    obtain ⟨label, hparse⟩ := Label.parseQuery_isSome hst'
      (q := (pending '\n' p).take maxStrLen) (List.length_take_le _ _)
    simp only [take_store, h.line, hparse, if_true, Option.map_some]
    refine ⟨_, rfl, ?_, ?_, ?_, ?_⟩
    · -- the next line is empty
      simp [pending_concat_sep]
    · simp [pending_concat_sep]
    · -- one more line, and its label
      rw [terminated_concat_sep, List.map_append]
      exact buildLabels_concat h.built hparse
    · -- which goes to the queue
      simp [h.queue]
  · -- any other character: the pending line grows, up to the size of the buffer
    rw [if_neg hc]
    refine ⟨_, rfl, ?_, ?_, ?_, h.queue⟩
    · simp only [pending_concat_ne hc]
      by_cases hroom : s.charIndex < maxStrLen
      · -- there is room: nothing has been cut so far
        have hshort : s.charIndex = (pending '\n' p).length := by
          have := h.index
          omega
        simp only [hroom, dif_pos, if_true]
        rw [take_store_succ _ _ hroom, h.line, List.take_of_length_le (by omega),
          List.take_of_length_le]
        rw [List.length_append, List.length_singleton]
        omega
      · -- the buffer is full: the line stays cut where it was
        have hlong : maxStrLen ≤ (pending '\n' p).length := by
          have := h.index
          omega
        simp only [hroom, dif_neg, not_false_eq_true, if_false]
        rw [h.line, List.take_append_of_le_length hlong]
    · simp only [pending_concat_ne hc, List.length_append, List.length_singleton]
      have := h.index
      split <;> omega
    · rw [terminated_concat_ne hc]
      exact h.built

/-- The character the loop reads at its `i`-th frame. -/
theorem channel0_getD (buf : SndBuf) {i : Nat} (h : i < buf.frames) :
    buf.channel0[i]? = some (buf.data.getD (i * buf.channels) 0) := by
  simp [SndBuf.channel0, h]

/-- **The scan.** From the `i`-th frame on, the loop adds the characters of the
first channel up to a NUL. -/
theorem pushLoop_inv (buf : SndBuf) {m0 : LabelInput} {st0 : Statics}
    (hst : Label.StaticsFit st0) {i : Nat} {p : List Char} {s : PushState}
    (hi : i ≤ buf.frames) (h : LoopInv m0 st0 p s) :
    ∃ s', pushLoop buf (i * buf.channels) s = some s' ∧
      LoopInv m0 st0 (p ++ labelText ((buf.channel0.map toChar).drop i)) s' := by
  have hlen : buf.channel0.length = buf.frames := by simp [SndBuf.channel0]
  obtain ⟨k, hk⟩ : ∃ k, buf.frames = i + k := ⟨buf.frames - i, by omega⟩
  induction k generalizing i p s with
  | zero =>
    -- the end of the buffer
    have hend : ¬ i * buf.channels < buf.samples := by
      rw [buf.samples_eq, hk]
      simp
    rw [pushLoop, dif_neg hend]
    refine ⟨s, rfl, ?_⟩
    rw [List.drop_of_length_le (by rw [List.length_map, hlen]; omega)]
    simpa [labelText] using h
  | succ k ih =>
    have hlt : i < buf.frames := by omega
    have hin : i * buf.channels < buf.samples := by
      rw [buf.samples_eq]
      exact Nat.mul_lt_mul_of_pos_right hlt buf.channels_pos
    -- the first sample of the frame is what channel 0 has there
    have hread : (buf.channel0.map toChar).drop i =
        toChar (buf.data.getD (i * buf.channels) 0) ::
          (buf.channel0.map toChar).drop (i + 1) := by
      have hil : i < (buf.channel0.map toChar).length := by
        rw [List.length_map, hlen]
        exact hlt
      rw [List.drop_eq_getElem_cons hil]
      congr 1
      have hget := channel0_getD buf hlt
      rw [List.getElem?_eq_some_iff] at hget
      obtain ⟨_, hget⟩ := hget
      rw [List.getElem_map, hget]
    have hdata : buf.data.getD (i * buf.channels) 0 =
        buf.data.get ⟨i * buf.channels, by rw [buf.data_length]; exact hin⟩ := by
      rw [List.getD_eq_getElem]
      rfl
    rw [pushLoop, dif_pos hin, hread, hdata]
    by_cases hnul : toChar (buf.data.get ⟨i * buf.channels,
        by rw [buf.data_length]; exact hin⟩) = '\x00'
    · -- a NUL: nothing behind it is read
      rw [if_pos hnul, hnul]
      refine ⟨s, rfl, ?_⟩
      simpa [labelText] using h
    · -- the frames behind this one, by induction from the state it leaves
      rw [if_neg hnul]
      obtain ⟨s', hs', hinv⟩ := pushChar_inv hst h
        (toChar (buf.data.get ⟨i * buf.channels, by rw [buf.data_length]; exact hin⟩))
      rw [hs']
      obtain ⟨s'', hs'', hinv'⟩ := ih (i := i + 1) (by omega) hinv (by omega)
      rw [Nat.succ_mul] at hs''
      refine ⟨s'', hs'', ?_⟩
      rw [labelText, List.takeWhile_cons_of_pos (by simpa using hnul)]
      simpa [labelText] using hinv'

/-- What the whole call does, for every buffer. -/
theorem pushLabels_spec (buf : SndBuf) (m0 : LabelInput) {st0 : Statics}
    (hst : Label.StaticsFit st0) (stringBuf : Vector Char maxStrLen) :
    ∃ st built,
      pushLabelsFromSndBuf (some stringBuf) buf m0 st0 =
        some (true, (built.map (·.label)).foldl LabelInput.pushLabel m0, st, built) ∧
      buildLabels st0 (labelLines (buf.channel0.map toChar)) = some (built, st) := by
  obtain ⟨s, hs, hinv⟩ :=
    pushLoop_inv buf hst (Nat.zero_le _) (loopInv_start stringBuf m0 st0)
  rw [Nat.zero_mul] at hs
  rw [List.nil_append, List.drop_zero] at hinv
  refine ⟨s.statics, s.built, ?_, hinv.built⟩
  simp [pushLabelsFromSndBuf, hs, ← hinv.queue]

-- ---------------------------------------------------------------------------
-- The statics of the process
-- ---------------------------------------------------------------------------

/-- The statics of the label parser as the pushes of this process leave them. -/
inductive ProcessStatics : Statics → Prop
  | start : ProcessStatics Statics.initial
  | push {st st' : Statics} {stringBuf : Option (Vector Char maxStrLen)} {buf : SndBuf}
      {mage mage' : LabelInput} {ok : Bool} {built : List LabelEvent} :
      ProcessStatics st →
      pushLabelsFromSndBuf stringBuf buf mage st = some (ok, mage', st', built) →
      ProcessStatics st'

/-- The tokens that a process has left fit. -/
theorem ProcessStatics.fit {st : Statics} (h : ProcessStatics st) : Label.StaticsFit st := by
  induction h with
  | start => exact Label.staticsFit_initial
  | @push st st' stringBuf buf mage mage' ok built _ hrun ih =>
    cases stringBuf with
    | none =>
      -- the allocation failed, no label was parsed
      simp only [pushLabelsFromSndBuf, Option.some.injEq, Prod.mk.injEq] at hrun
      rw [← hrun.2.2.1]
      exact ih
    | some stringBuf =>
      obtain ⟨st1, built1, hspec, hbuild⟩ := pushLabels_spec buf mage ih stringBuf
      rw [hspec] at hrun
      simp only [Option.some.injEq, Prod.mk.injEq] at hrun
      rw [← hrun.2.2.1]
      exact (buildLabels_events ih (fun _ => length_le_of_mem_labelLines) hbuild).1

-- ---------------------------------------------------------------------------
-- The label buffer format
-- ---------------------------------------------------------------------------

/--
**Label buffer format.** Whatever the other channels hold, the strings handed
to `Label` are the newline-terminated lines of the text in the first channel
up to its first NUL, each cut to `maxStrLen` characters, and an initially empty
queue then drains to the first labels that fit, in order. -/
theorem pushLabels_hands_over_lines {buf : SndBuf} {text : List Char} {mage : LabelInput}
    {st : Statics} (hprocess : ProcessStatics st)
    (hcodes : ∀ c ∈ text, c.toNat < 128)
    (htext : buf.channel0 = text.map fun c => (c.toNat : ℚ))
    (hwf : mage.labelQueue.Wf) (hsize : mage.labelQueue.queue.length = maxLabelQueueLen)
    (hempty : mage.labelQueue.labels = []) (stringBuf : Vector Char maxStrLen) :
    ∃ mage' st' built,
      pushLabelsFromSndBuf (some stringBuf) buf mage st = some (true, mage', st', built) ∧
      built.map (·.labelString) = labelLines text ∧
      buildLabels st (labelLines text) = some (built, st') ∧
      mage'.labelQueue.drain maxLabelQueueLen =
        (built.map (·.label)).take maxLabelQueueLen := by
  obtain ⟨st', built, hrun, hbuild⟩ := pushLabels_spec buf mage hprocess.fit stringBuf
  rw [toChar_channel0 hcodes htext] at hbuild
  refine ⟨_, st', built, hrun, buildLabels_labelStrings hbuild, hbuild, ?_⟩
  -- the queue keeps the first labels that fit, and draining it returns them
  obtain ⟨hwf', hlen', hlabels⟩ :=
    LabelInput.foldl_pushLabel_labels (built.map (·.label)) hwf
  rw [hempty, List.nil_append, hsize] at hlabels
  rw [LabelQueue.drain_eq_labels hwf', hlabels]
  rw [← LabelQueue.length_labels, hlabels]
  exact List.length_take_le _ _

/-- The queue of a freshly constructed `Mage`. -/
def freshInput : LabelInput := ⟨LabelQueue.new maxLabelQueueLen, default, 1⟩

theorem freshInput_wf : freshInput.labelQueue.Wf :=
  LabelQueue.wf_new (by decide) (by decide)

/-- A buffer with a label, an empty line and text without a newline. -/
theorem pushLabels_hands_over_two_lines :
    ∃ mage' st' built,
      pushLabelsFromSndBuf (some (Vector.replicate maxStrLen 'x'))
          (loadCollection "0 5 a\n\nb".toList) freshInput Statics.initial =
        some (true, mage', st', built) ∧
      built.map (·.labelString) = labelLines "0 5 a\n\nb".toList ∧
      buildLabels Statics.initial (labelLines "0 5 a\n\nb".toList) = some (built, st') ∧
      mage'.labelQueue.drain maxLabelQueueLen =
        (built.map (·.label)).take maxLabelQueueLen :=
  pushLabels_hands_over_lines ProcessStatics.start (by simp)
    (channel0_loadCollection _) freshInput_wf List.length_replicate
    (LabelQueue.labels_new _) _

example : labelLines "0 5 a\n\nb".toList = ["0 5 a".toList, []] := by decide

-- ---------------------------------------------------------------------------
-- Over-long labels
-- ---------------------------------------------------------------------------

/-- What is copied of a label leaves room for the terminating NUL: the three
pieces `Label::parseQuery` copies, and the query that `Model::computeDuration`
and `Model::computeParameters` copy. -/
def LabelEvent.Fits (e : LabelEvent) : Prop :=
  e.copied.first.length ≤ maxStrLen - 1 ∧ e.copied.middle.length ≤ maxStrLen - 1 ∧
    e.copied.last.length ≤ maxStrLen - 1 ∧ e.label.query.length ≤ maxStrLen - 1

/-- A list of at most `n` symbols has a shorter `takeWhile` when it is shorter
itself or has a symbol to stop at. -/
theorem length_takeWhile_lt_iff {α : Type*} {p : α → Bool} {l : List α} {n : Nat}
    (h : l.length ≤ n) :
    (l.takeWhile p).length < n ↔ l.length < n ∨ ∃ x ∈ l, p x = false := by
  have hpre : l.takeWhile p <+: l := List.takeWhile_prefix p
  refine ⟨?_, ?_⟩
  · intro hlt
    by_contra hnot
    push Not at hnot
    obtain ⟨hlen, hall⟩ := hnot
    have hself : l.takeWhile p = l :=
      List.takeWhile_eq_self_iff.mpr fun x hx => by simpa using hall x hx
    rw [hself] at hlt
    omega
  · rintro (hlt | ⟨x, hx, hpx⟩)
    · exact lt_of_le_of_lt hpre.length_le hlt
    · -- of full length it would hold `x`, which it stops at
      refine lt_of_lt_of_le (lt_of_le_of_ne hpre.length_le ?_) h
      intro heq
      rw [← hpre.eq_of_length heq] at hx
      have := List.mem_takeWhile_imp hx
      rw [hpx] at this
      simp at this

/-- A construction fits when its first piece does. -/
theorem fits_iff_first {e : LabelEvent} (hfit : Label.StaticsFit e.copied)
    (hparse : ∃ st0, Label.parseQuery st0 e.labelString = some (e.label, e.copied)) :
    e.Fits ↔ e.copied.first.length < maxStrLen := by
  obtain ⟨st0, hparse⟩ := hparse
  have hpos : 0 < maxStrLen := by decide
  refine ⟨?_, ?_⟩
  · rintro ⟨hf, -⟩
    omega
  · intro hf
    have hq := Label.parseQuery_query_length hparse hf hfit.2
    obtain ⟨hm, hl⟩ := hfit
    exact ⟨by omega, by omega, by omega, by omega⟩

/--
**When the copies of a label stay inside their arrays.** They do for every line
of the buffer exactly when every line is shorter than `maxStrLen` or has a space
among its first `maxStrLen` characters: the line is cut to `maxStrLen`
characters, one more than an array of `maxStrLen` has room for. -/
theorem pushLabels_fits_iff {st : Statics} (hprocess : ProcessStatics st)
    (stringBuf : Vector Char maxStrLen) (buf : SndBuf) (mage : LabelInput) :
    ∃ mage' st' built,
      pushLabelsFromSndBuf (some stringBuf) buf mage st = some (true, mage', st', built) ∧
      ((∀ e ∈ built, e.Fits) ↔
        ∀ line ∈ terminated '\n' (labelText (buf.channel0.map toChar)),
          line.length < maxStrLen ∨ ' ' ∈ line.take maxStrLen) := by
  obtain ⟨st', built, hrun, hbuild⟩ := pushLabels_spec buf mage hprocess.fit stringBuf
  have hev := (buildLabels_events hprocess.fit
    (fun _ => length_le_of_mem_labelLines) hbuild).2
  have hlines := buildLabels_labelStrings hbuild
  -- one construction: its first copy stops at a space, if its line has one
  have hfits : ∀ e ∈ built, (e.Fits ↔ e.labelString.length < maxStrLen ∨ ' ' ∈ e.labelString) := by
    intro e he
    obtain ⟨hfirst, hfit, hparse⟩ := hev e he
    have hle : e.labelString.length ≤ maxStrLen := by
      apply length_le_of_mem_labelLines
      rw [← hlines]
      exact List.mem_map_of_mem he
    rw [fits_iff_first hfit hparse, hfirst, length_takeWhile_lt_iff hle]
    simp
  have hall : (∀ e ∈ built, e.Fits) ↔
      ∀ l ∈ labelLines (buf.channel0.map toChar), l.length < maxStrLen ∨ ' ' ∈ l := by
    rw [← hlines, List.forall_mem_map]
    exact forall₂_congr hfits
  refine ⟨_, st', built, hrun, ?_⟩
  -- the lines as they were before the cut
  rw [hall, labelLines, List.forall_mem_map]
  refine forall₂_congr fun line _ => ?_
  rw [List.length_take]
  refine ⟨?_, ?_⟩
  · rintro (h | h)
    · exact Or.inl (by omega)
    · exact Or.inr h
  · rintro (h | h)
    · exact Or.inl (by omega)
    · exact Or.inr h

/-- A label of 1023 characters fits. -/
theorem pushLabels_fits_iff_short :
    ∃ mage' st' built,
      pushLabelsFromSndBuf (some (Vector.replicate maxStrLen 'x'))
          (loadCollection (List.replicate 1023 'a' ++ ['\n'])) freshInput Statics.initial =
        some (true, mage', st', built) ∧
      ((∀ e ∈ built, e.Fits) ↔
        ∀ line ∈ terminated '\n' (labelText
            ((loadCollection (List.replicate 1023 'a' ++ ['\n'])).channel0.map toChar)),
          line.length < maxStrLen ∨ ' ' ∈ line.take maxStrLen) :=
  pushLabels_fits_iff ProcessStatics.start _ _ _

/-- A property of the characters of a line. -/
theorem forall_mem_line {P : Char → Prop} (n : Nat) (hletter : P 'a') (hnewline : P '\n') :
    ∀ c ∈ List.replicate n 'a' ++ ['\n'], P c := by
  intro c hc
  rcases List.mem_append.mp hc with h | h
  · rw [List.eq_of_mem_replicate h]
    exact hletter
  · rw [List.mem_singleton.mp h]
    exact hnewline

/-- The lines of a text that is one line of `n` letters. -/
theorem labelLines_replicate (n : Nat) :
    labelLines (List.replicate n 'a' ++ ['\n']) = [(List.replicate n 'a').take maxStrLen] := by
  have hnonul : labelText (List.replicate n 'a' ++ ['\n']) = List.replicate n 'a' ++ ['\n'] := by
    rw [labelText, List.takeWhile_eq_self_iff]
    exact forall_mem_line n (by decide) (by decide)
  have hsplit : (List.replicate n 'a').splitOn '\n' = [List.replicate n 'a'] := by
    apply List.splitOn_eq_singleton
    intro h
    exact absurd (List.eq_of_mem_replicate h) (by decide)
  rw [labelLines, hnonul, terminated_concat_sep]
  simp [terminated, pending, hsplit]

/-- **A label of exactly 1024 characters overruns**: the buffer's line is not
cut, and its copy writes the terminating NUL past the end of `strBegin`. -/
theorem label_of_1024_overruns :
    ∃ mage' st' built,
      pushLabelsFromSndBuf (some (Vector.replicate maxStrLen 'x'))
          (loadCollection (List.replicate 1024 'a' ++ ['\n'])) freshInput Statics.initial =
        some (true, mage', st', built) ∧
      ∃ e ∈ built, e.copied.first.length = maxStrLen ∧ ¬ e.Fits := by
  have hcodes : ∀ c ∈ List.replicate 1024 'a' ++ ['\n'], c.toNat < 128 :=
    forall_mem_line 1024 (by decide) (by decide)
  obtain ⟨st', built, hrun, hbuild⟩ := pushLabels_spec
    (loadCollection (List.replicate 1024 'a' ++ ['\n'])) freshInput
    Label.staticsFit_initial (Vector.replicate maxStrLen 'x')
  rw [toChar_channel0 hcodes (channel0_loadCollection _)] at hbuild
  have hev := (buildLabels_events Label.staticsFit_initial
    (fun _ => length_le_of_mem_labelLines) hbuild).2
  have hlines := buildLabels_labelStrings hbuild
  rw [labelLines_replicate] at hlines
  refine ⟨_, st', built, hrun, ?_⟩
  obtain ⟨e, he, hstr⟩ : ∃ e ∈ built, e.labelString = (List.replicate 1024 'a').take maxStrLen := by
    rw [← List.mem_map, hlines]
    exact List.mem_singleton_self _
  obtain ⟨hfirst, hfit, hparse⟩ := hev e he
  -- the line has no space, so its first piece is all of it
  have hlen : e.copied.first.length = maxStrLen := by
    rw [hfirst, hstr, List.take_of_length_le (by rw [List.length_replicate]; decide),
      List.takeWhile_eq_self_iff.mpr, List.length_replicate]
    · rfl
    · intro c hc
      rw [List.eq_of_mem_replicate hc]
      decide
  refine ⟨e, he, hlen, ?_⟩
  rw [fits_iff_first hfit hparse, hlen]
  exact lt_irrefl _

end Vox.SCMage
