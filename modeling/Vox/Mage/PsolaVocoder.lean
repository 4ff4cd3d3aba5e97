import Vox.Mage.VoicedPitch

/-!
# MAGE — the PSOLA vocoder

`PsolaVocoder` keeps its excitation in a ring, `source`. A voiced period is added around the
position `p_s`, from `ct0` before it to `ct0` after it, where `p_s` then is; the counter says
how many samples of it are still to come. Each call of `excite` takes a sample at `tail_s`.
When the speech becomes unvoiced, what is left of the period is cleared: the position goes
back by the counter. Positions are of type `int`, wrapped by hand and compared with an
unsigned size.

* `Placed` — what every call keeps: the positions are in the ring, and `p_s` is
  `PSOLA_MAX_T0` and the counter ahead of `tail_s`.
* `Placed.excite_inRange_iff` — the indices of one call of `excite` are in range exactly when
  the vocoder is `Aligned`.
* `safe_iff_aligned` — so are those of all calls of a run.
-/

namespace Vox.Mage

open Lib

namespace PsolaVocoder

-- ---------------------------------------------------------------------------
-- The ring
-- ---------------------------------------------------------------------------

/-- An index into an array, and the size that the array then has. -/
inductive Access
  | source (index : Int) (size : Nat)
  | pulse (index : Int) (size : Nat)
  deriving DecidableEq, Repr

/-- The index is in range. -/
def Access.InRange : Access → Prop
  | .source index size | .pulse index size => 0 ≤ index ∧ index < size

/-- `if( ind >= source.size() ) ind = 0;`, where a negative `ind` is a large unsigned
number. -/
def wrap (ind : Int) (size : Nat) : Int := if ind < 0 ∨ size ≤ ind then 0 else ind

section Ring

variable {K : Type*} [Zero K]

/-- A cell of an array; there is nothing outside. -/
def cell (source : List K) (ind : Int) : K := if ind < 0 then 0 else source.getD ind.toNat 0

def setCell (source : List K) (ind : Int) (x : K) : List K :=
  if ind < 0 then source else source.set ind.toNat x

/-- What a loop over `source` has reached. -/
structure Writing (K : Type*) where
  ind : Int
  source : List K
  accesses : List Access

/-- `source[ind++] = …`, with `value` of what is there, and the wrap after it. -/
def Writing.put (w : Writing K) (reads : List Access) (value : K → K) : Writing K where
  ind := wrap (w.ind + 1) w.source.length
  source := setCell w.source w.ind (value (cell w.source w.ind))
  accesses := w.accesses ++ reads ++ [.source w.ind w.source.length]

/-- A loop over `source`, with `k` from `ks`. -/
def Writing.puts (ks : List Nat) (reads : Nat → List Access) (value : Nat → K → K)
    (w : Writing K) : Writing K := ks.foldl (fun w k => w.put (reads k) (value k)) w

/-- One step on, the index is taken modulo the size. -/
theorem wrap_succ {ind : Int} {size : Nat} (hlo : 0 ≤ ind) (hhi : ind < size) :
    wrap (ind + 1) size = (ind + 1) % size := by
  rw [wrap]
  by_cases hend : (size : Int) ≤ ind + 1
  · -- the index after the last is the first
    rw [if_pos (.inr hend), show ind + 1 = size by omega, Int.emod_self]
  · rw [if_neg (by omega), Int.emod_eq_of_lt (by omega) (by omega)]

omit [Zero K] in
/-- Writing a cell keeps the buffer's size. -/
theorem length_setCell (source : List K) (ind : Int) (x : K) :
    (setCell source ind x).length = source.length := by
  rw [setCell]
  split
  · rfl
  · exact List.length_set

namespace Writing

variable (reads : Nat → List Access) (value : Nat → K → K)

theorem length_puts (ks : List Nat) (w : Writing K) :
    (puts ks reads value w).source.length = w.source.length := by
  refine foldl_invariant (I := fun w' : Writing K => w'.source.length = w.source.length)
    (fun w' k hw => ?_) ks w rfl
  exact (length_setCell _ _ _).trans hw

/-- The log only grows. -/
theorem mem_puts {a : Access} (ks : List Nat) {w : Writing K} (ha : a ∈ w.accesses) :
    a ∈ (puts ks reads value w).accesses := by
  refine foldl_invariant (I := fun w' : Writing K => a ∈ w'.accesses) (fun w' k hw => ?_) ks w ha
  exact List.mem_append_left _ (List.mem_append_left _ hw)

/-- The first turn uses the index that the loop starts with. -/
theorem first_mem_puts {ks : List Nat} (hks : ks ≠ []) (w : Writing K) :
    .source w.ind w.source.length ∈ (puts ks reads value w).accesses := by
  cases ks with
  | nil => exact absurd rfl hks
  | cons k ks =>
    refine mem_puts reads value ks (w := w.put (reads k) (value k)) ?_
    exact List.mem_append_right _ (List.mem_singleton.mpr rfl)

/-- **From an index in range** a loop uses indices in range, but for what else it reads. -/
theorem puts_inRange (ks : List Nat) {w : Writing K} (hlo : 0 ≤ w.ind)
    (hhi : w.ind < w.source.length) :
    (puts ks reads value w).ind = (w.ind + ks.length) % w.source.length ∧
      ((∀ a ∈ (puts ks reads value w).accesses, a.InRange) ↔
        (∀ a ∈ w.accesses, a.InRange) ∧ ∀ k ∈ ks, ∀ a ∈ reads k, a.InRange) := by
  induction ks generalizing w with
  | nil => exact ⟨by simp [puts, Int.emod_eq_of_lt hlo hhi], by simp [puts]⟩
  | cons k ks ih =>
    -- one turn leaves an index in range, from which the others go on
    have hlength : (w.put (reads k) (value k)).source.length = w.source.length :=
      length_setCell _ _ _
    have hind : (w.put (reads k) (value k)).ind = (w.ind + 1) % w.source.length :=
      wrap_succ hlo hhi
    have hpos : (0 : Int) < w.source.length := by omega
    obtain ⟨hnext, haccesses⟩ := ih (w := w.put (reads k) (value k))
      (by rw [hind]; exact Int.emod_nonneg _ hpos.ne')
      (by rw [hind, hlength]; exact Int.emod_lt_of_pos _ hpos)
    refine ⟨?_, ?_⟩
    · show (puts ks reads value (w.put (reads k) (value k))).ind = _
      rw [hnext, hind, hlength, Int.emod_add_emod, List.length_cons, Nat.cast_succ]
      congr 1
      omega
    · show (∀ a ∈ (puts ks reads value (w.put (reads k) (value k))).accesses, _) ↔ _
      have hin : Access.InRange (.source w.ind w.source.length) := ⟨hlo, hhi⟩
      rw [haccesses]
      simp only [put, List.forall_mem_append, List.forall_mem_cons, List.not_mem_nil,
        false_implies, implies_true, hin, and_true]
      tauto

/-- Two loops, one after the other. -/
theorem puts_puts_inRange (value' : Nat → K → K) (ks ks' : List Nat) {w : Writing K}
    (hlo : 0 ≤ w.ind) (hhi : w.ind < w.source.length) :
    (puts ks' reads value' (puts ks reads value w)).ind
        = (w.ind + ks.length + ks'.length) % w.source.length ∧
      ((∀ a ∈ (puts ks' reads value' (puts ks reads value w)).accesses, a.InRange) ↔
        (∀ a ∈ w.accesses, a.InRange) ∧ ∀ k ∈ ks ++ ks', ∀ a ∈ reads k, a.InRange) := by
  have hpos : (0 : Int) < w.source.length := by omega
  obtain ⟨hind, haccesses⟩ := puts_inRange reads value ks hlo hhi
  have hlength := length_puts reads value ks w
  obtain ⟨hind', haccesses'⟩ := puts_inRange reads value' ks'
    (w := puts ks reads value w) (by rw [hind]; exact Int.emod_nonneg _ hpos.ne')
    (by rw [hind, hlength]; exact Int.emod_lt_of_pos _ hpos)
  refine ⟨?_, ?_⟩
  · rw [hind', hind, hlength, Int.emod_add_emod]
  · rw [haccesses', haccesses, List.forall_mem_append, and_assoc]

end Writing

end Ring

-- ---------------------------------------------------------------------------
-- The vocoder
-- ---------------------------------------------------------------------------

/-- `512*4` -/
def PSOLA_MAX_T0 : Int := 512 * 4

def PSOLA_MAX_OUT_BUFFER_LENGTH : Int := 16 * PSOLA_MAX_T0

def PSOLA_FRAMEQUEUE_LENGTH : Nat := 64

end PsolaVocoder

/-- The members of `PsolaVocoder`. Those of `Vocoder` are in `base`; its `c`, `inc`, `cc` and
`d` are hidden by the ones here. -/
structure PsolaVocoder (K : Type*) where
  base : Vocoder K
  c : List (List K)
  inc : List (List K)
  cc : List K
  d : List K
  head_c : Nat
  tail_c : Nat
  pulse : List K
  source : List K
  tail_s : Int
  p_s : Int
  hopLen : List Int
  countInitPop : Int
  errorT0 : K

namespace PsolaVocoder

variable {K : Type*} [Field K] [LinearOrder K]

/-- `PsolaVocoder::PsolaVocoder`. The members `gamma`, `actionValue` and `cc` are not set. -/
def construct (am : Nat) (aalpha : K) (afprd aiprd astage apd : Int) (angain : Bool)
    (gamma actionValue : K) (cc : List K) : PsolaVocoder K where
  base := Vocoder.construct am aalpha afprd aiprd astage apd angain gamma actionValue
  c := List.replicate PSOLA_FRAMEQUEUE_LENGTH (List.replicate (am + 1) 0)
  inc := List.replicate PSOLA_FRAMEQUEUE_LENGTH (List.replicate (am + 1) 0)
  cc := cc
  d := List.replicate (if astage ≠ 0 then am + am + am + 3 + (am + 1) * astage.toNat
    else 3 * (am + 1) + 3 * (apd.toNat + 1) + apd.toNat * (am + 2)) 0
  head_c := 0
  tail_c := 0
  pulse := List.replicate (2 * PSOLA_MAX_T0).toNat 0
  source := List.replicate PSOLA_MAX_OUT_BUFFER_LENGTH.toNat 0
  tail_s := 0
  p_s := PSOLA_MAX_T0
  hopLen := []
  countInitPop := PSOLA_MAX_T0
  errorT0 := 0

/-- The rounded period, at most `PSOLA_MAX_T0`. -/
def ct0 [FloorRing K] (v : PsolaVocoder K) : Int :=
  let ct0 := truncateHalf v.base.t0
  if ct0 > PSOLA_MAX_T0 then PSOLA_MAX_T0 else ct0

/-- `PsolaVocoder::makepulse`: a pulse in the middle, and the indices that are used. -/
def makepulse (libm : Libm K) (length : Nat) : List K × List Access :=
  let mid := length / 2
  ((List.replicate length 0).set mid (libm.sqrt mid),
    (List.range length).map (fun k : Nat => .pulse k length) ++ [.pulse mid length])

/-- What `excite` has done before it takes the sample. -/
structure Excitation (K : Type*) where
  vocoder : PsolaVocoder K
  random : Nat → K
  accesses : List Access

/-- The next voiced period, added around `p_s`. -/
def period [FloorRing K] (libm : Libm K) (v : PsolaVocoder K) (random : Nat → K) :
    Excitation K :=
  let ct0 := v.ct0
  let r := makepulse libm (2 * ct0).toNat
  let pulse (k : Nat) : K := r.1.getD k 0
  let ind := v.p_s - ct0
  let ind := if ind < 0 then ind + v.source.length else ind
  -- the first half is added to what is there, the second is not
  let reads (k : Nat) : List Access := [.pulse k r.1.length]
  let w := Writing.puts (List.range ct0.toNat) reads (fun k x => x + pulse k)
    ⟨ind, v.source, r.2⟩
  let w := Writing.puts (List.range' ct0.toNat ct0.toNat) reads (fun k _ => pulse k) w
  { vocoder :=
      { v with
        base := { v.base with count := ct0 }
        errorT0 := v.errorT0 + (ct0 - v.base.t0)
        pulse := r.1
        source := w.source
        p_s := wrap (w.ind + 1) w.source.length }
    random := random
    accesses := w.accesses }

/-- A random sample, in place of what is left of the last voiced period. -/
def noise (v : PsolaVocoder K) (random : Nat → K) : Excitation K :=
  let p_s := v.p_s - v.base.count
  let w := Writing.puts (List.range (v.base.count + 1).toNat) (fun _ => []) (fun _ _ => 0)
    ⟨p_s, v.source, []⟩
  let p_s := if p_s < 0 then p_s + w.source.length else p_s
  { vocoder :=
      { v with
        base := { v.base with count := 0 }
        source := setCell w.source p_s (random 0)
        p_s := wrap (p_s + 1) w.source.length }
    random := fun k => random (k + 1)
    accesses := w.accesses ++ [.source p_s w.source.length] }

/-- `PsolaVocoder::excite`, up to the sample. -/
def fill [FloorRing K] (libm : Libm K) (v : PsolaVocoder K) (random : Nat → K) : Excitation K :=
  if v.base.voiced then
    if v.base.count ≤ 0 then v.period libm random
    else ⟨{ v with base := { v.base with count := v.base.count - 1 } }, random, []⟩
  else v.noise random

/-- `PsolaVocoder::excite`: the sample, and what is left. -/
def excite [FloorRing K] (libm : Libm K) (v : PsolaVocoder K) (random : Nat → K) :
    K × Excitation K :=
  let r := v.fill libm random
  let v := r.vocoder
  (cell v.source v.tail_s,
    { vocoder :=
        { v with
          source := setCell v.source v.tail_s 0
          tail_s := wrap (v.tail_s + 1) v.source.length }
      random := r.random
      accesses := r.accesses ++ [.source v.tail_s v.source.length] })

/-- The next row of a ring of rows. -/
def nextRow (row size : Nat) : Nat := if row + 1 ≥ size then 0 else row + 1

/-- `PsolaVocoder::prepare` -/
def prepare (libm : Libm K) (v : PsolaVocoder K) (frame : Frame K) (voiced ignoreVoicing : Bool) :
    PsolaVocoder K :=
  let b := v.base.coefficients libm frame
  let step (y x : K) : K := (y - x) * (v.base.iprd : K) / (v.base.fprd : K)
  let c := if v.base.flagFirstPush then b else v.cc
  let inc :=
    if v.base.flagFirstPush then List.replicate (v.base.m + 1) 0 else List.zipWith step b c
  let hopLen :=
    if v.base.flagFirstPush then v.hopLen
    else v.hopLen ++ [if v.hopLen.isEmpty then 0 else v.base.nOfPopSinceLastPush]
  let f0 :=
    if v.base.action = overwrite then v.base.actionValue
    else if v.base.action = shift then frame.streams lf0StreamIndex 0 + v.base.actionValue
    else if v.base.action = scale then frame.streams lf0StreamIndex 0 * v.base.actionValue
    else frame.streams lf0StreamIndex 0
  let f0 := if f0 < 0 then (defaultPitch : K) else f0
  { v with
    base :=
      { v.base with
        flagFirstPush := false
        f0 := f0
        t0 := defaultSamplingRate / f0
        voiced := if ignoreVoicing then v.base.voiced else voiced
        nOfPopSinceLastPush := 0 }
    c := v.c.set v.head_c c
    cc := b
    inc := v.inc.set v.head_c inc
    head_c := nextRow v.head_c v.c.length
    hopLen := hopLen }

/-- The frame that `pop` goes on with. The first frames wait for `PSOLA_MAX_T0` pops. -/
def hop (v : PsolaVocoder K) : PsolaVocoder K :=
  if v.countInitPop > 0 then { v with countInitPop := v.countInitPop - 1 }
  else
    match v.hopLen with
    | [] => v
    | front :: hopLen =>
      if front - 1 ≤ 0 then
        let v := { v with hopLen := hopLen, tail_c := nextRow v.tail_c v.c.length }
        if hopLen.isEmpty then
          { v with
            countInitPop := PSOLA_MAX_T0
            base := { v.base with flagFirstPush := true } }
        else v
      else { v with hopLen := (front - 1) :: hopLen }

/-- `PsolaVocoder::pop`, with the excitation `x`. -/
def filter (libm : Libm K) (v : PsolaVocoder K) (x : K) : K × PsolaVocoder K :=
  let row := v.c.getD v.tail_c []
  let b (i : Nat) : K := row.getD i 0
  let d (i : Nat) : K := v.d.getD i 0
  let x := if v.base.ngain then x * b 0 else x * libm.exp (b 0)
  let r :=
    if v.base.stage ≠ 0 then mglsadf x b v.base.m v.base.alpha v.base.stage.toNat d
    else mlsadf x b v.base.m v.base.alpha v.base.pd.toNat d
  let c :=
    if v.base.nOfPopSinceLastPush < v.base.fprd.tdiv v.base.iprd then
      v.c.set v.tail_c (List.zipWith (· + ·) row (v.inc.getD v.tail_c []))
    else v.c
  let v :=
    { v with
      c := c
      d := (List.range v.d.length).map r.2
      base := { v.base with nOfPopSinceLastPush := v.base.nOfPopSinceLastPush + 1 } }
  (if v.base.volume ≥ 0 then v.base.volume * r.1 else r.1, v.hop)

def pop [FloorRing K] (libm : Libm K) (v : PsolaVocoder K) (random : Nat → K) :
    K × PsolaVocoder K × (Nat → K) :=
  let s := v.excite libm random
  let r := s.2.vocoder.filter libm s.1
  (r.1, r.2, s.2.random)

/-- `PsolaVocoder::reset`. The loops over the coefficients end before the last. -/
def reset (v : PsolaVocoder K) : PsolaVocoder K :=
  let clear (row : List K) : List K := row.mapIdx fun i x => if i < v.base.m then 0 else x
  { v with
    c := v.c.map clear
    inc := v.inc.map clear
    d := v.d.map fun _ => 0
    base :=
      { v.base with
        f0 := defaultPitch
        t0 := defaultSamplingRate / defaultPitch
        action := noaction
        alpha := Vocoder.defaultAlpha
        gamma := defaultGamma
        stage := defaultGamma
        pd := defaultPadeOrder
        volume := defaultVolume
        flagFirstPush := true }
    countInitPop := PSOLA_MAX_T0 }

/-- What a call returns, and leaves of the vocoder and of the random numbers. -/
def call [FloorRing K] (libm : Libm K) (v : PsolaVocoder K) (random : Nat → K) :
    Vocoder.Call K → Option K × PsolaVocoder K × (Nat → K)
  | .push frame ignoreVoicing =>
    (none, v.prepare libm frame frame.voiced ignoreVoicing, random)
  | .pop =>
    let r := v.pop libm random
    (some r.1, r.2)
  | .setPitch pitch action forceVoiced =>
    (none, { v with base := v.base.setPitch pitch action forceVoiced }, random)
  | .setVoiced forceVoiced => (none, { v with base := v.base.setVoiced forceVoiced }, random)
  | .setAlpha alpha => (none, { v with base := v.base.setAlpha alpha }, random)
  | .setVolume volume => (none, { v with base := v.base.setVolume volume }, random)
  | .reset => (none, v.reset, random)

def step [FloorRing K] (libm : Libm K) (s : PsolaVocoder K × (Nat → K)) (c : Vocoder.Call K) :
    PsolaVocoder K × (Nat → K) := (call libm s.1 s.2 c).2

-- ---------------------------------------------------------------------------
-- Where the positions are
-- ---------------------------------------------------------------------------

theorem PSOLA_MAX_T0_eq : PSOLA_MAX_T0 = 2048 := rfl

theorem PSOLA_MAX_OUT_BUFFER_LENGTH_eq : PSOLA_MAX_OUT_BUFFER_LENGTH = 32768 := rfl

/-- The position in the ring of the samples that are taken, and as far ahead of it as
`PSOLA_MAX_T0` and what is left of the period the position of the next period. -/
structure Placed (v : PsolaVocoder K) : Prop where
  size_eq : v.source.length = PSOLA_MAX_OUT_BUFFER_LENGTH
  tail_s_nonneg : 0 ≤ v.tail_s
  tail_s_lt : v.tail_s < PSOLA_MAX_OUT_BUFFER_LENGTH
  count_nonneg : 0 ≤ v.base.count
  count_le : v.base.count ≤ PSOLA_MAX_T0
  p_s_eq : v.p_s = (PSOLA_MAX_T0 + v.tail_s + v.base.count) % PSOLA_MAX_OUT_BUFFER_LENGTH
  tuned : v.base.Tuned

/-- The next sample can be made: a period that begins is at least half a sample long, and what
is left of one does not begin before the ring does. -/
def Aligned (v : PsolaVocoder K) : Prop :=
  if v.base.voiced then v.base.count ≤ 0 → 1 ≤ v.base.t0 + v.base.t0 else v.base.count ≤ v.p_s

/-- A voiced frame needs a period of one sample at least. -/
theorem aligned_of_voiced {v : PsolaVocoder K} (hvoiced : v.base.voiced = true) :
    v.Aligned ↔ (v.base.count ≤ 0 → 1 ≤ v.base.t0 + v.base.t0) := by
  rw [Aligned, if_pos hvoiced]

/-- An unvoiced frame must not have its counter ahead of the position. -/
theorem aligned_of_unvoiced {v : PsolaVocoder K} (hvoiced : v.base.voiced = false) :
    v.Aligned ↔ v.base.count ≤ v.p_s := by
  rw [Aligned, if_neg (by rw [hvoiced]; exact Bool.false_ne_true)]

/-- What `excite` does before it takes the sample: the position of the next period advances
by one and what the counter advances by, in indices that are in range exactly when the
vocoder is aligned. -/
structure Advanced (v : PsolaVocoder K) (r : Excitation K) : Prop where
  length_eq : r.vocoder.source.length = v.source.length
  tail_s_eq : r.vocoder.tail_s = v.tail_s
  count_nonneg : 0 ≤ r.vocoder.base.count
  count_le : r.vocoder.base.count ≤ PSOLA_MAX_T0
  p_s_eq : r.vocoder.p_s =
    (PSOLA_MAX_T0 + v.tail_s + 1 + r.vocoder.base.count) % PSOLA_MAX_OUT_BUFFER_LENGTH
  tuned : r.vocoder.base.Tuned
  inRange : (∀ a ∈ r.accesses, a.InRange) ↔ v.Aligned

variable {v : PsolaVocoder K}

theorem Placed.p_s_mem (h : v.Placed) : 0 ≤ v.p_s ∧ v.p_s < PSOLA_MAX_OUT_BUFFER_LENGTH := by
  have hp_s := h.p_s_eq
  rw [PSOLA_MAX_OUT_BUFFER_LENGTH_eq] at hp_s ⊢
  omega

/-- What is left of the period does not begin before the ring, exactly when it does not reach
over the end of the ring from where the samples will be taken in `PSOLA_MAX_T0` calls. -/
theorem Placed.count_le_p_s_iff (h : v.Placed) :
    v.base.count ≤ v.p_s ↔ (PSOLA_MAX_T0 + v.tail_s) % PSOLA_MAX_OUT_BUFFER_LENGTH + v.base.count
      < PSOLA_MAX_OUT_BUFFER_LENGTH := by
  have hp_s := h.p_s_eq
  have hnonneg := h.count_nonneg
  have hle := h.count_le
  rw [PSOLA_MAX_OUT_BUFFER_LENGTH_eq, PSOLA_MAX_T0_eq] at *
  omega

omit [LinearOrder K] in
/-- A pulse has as many samples as were asked for. -/
theorem length_makepulse (libm : Libm K) (length : Nat) :
    (makepulse libm length).1.length = length := by
  rw [makepulse, List.length_set, List.length_replicate]

omit [LinearOrder K] in
/-- A pulse of no samples is written outside its array. -/
theorem makepulse_inRange_iff (libm : Libm K) (length : Nat) :
    (∀ a ∈ (makepulse libm length).2, a.InRange) ↔ 0 < length := by
  rw [makepulse, List.forall_mem_append, List.forall_mem_map, List.forall_mem_singleton]
  constructor
  · rintro ⟨-, hmid⟩
    have hlt : ((length / 2 : Nat) : Int) < length := hmid.2
    omega
  · intro hpos
    refine ⟨fun k hk => ⟨Int.natCast_nonneg k, ?_⟩, Int.natCast_nonneg _, ?_⟩
    · exact Int.ofNat_lt.mpr (List.mem_range.mp hk)
    · exact Int.ofNat_lt.mpr (Nat.div_lt_self hpos (by decide))

/-- A random sample. -/
theorem Placed.noise (h : v.Placed) (random : Nat → K)
    (hvoiced : v.base.voiced = false) : v.Advanced (v.noise random) := by
  obtain ⟨hp_s, hp_s'⟩ := h.p_s_mem
  have hsize := h.size_eq
  have hp_s_eq := h.p_s_eq
  have hcount := h.count_nonneg
  have hcount' := h.count_le
  rw [PSOLA_MAX_OUT_BUFFER_LENGTH_eq, PSOLA_MAX_T0_eq] at *
  set start : Writing K := ⟨v.p_s - v.base.count, v.source, []⟩ with hstart
  set w := Writing.puts (List.range (v.base.count + 1).toNat) (fun _ => []) (fun _ _ => 0) start
    with hw
  have hlength : w.source.length = v.source.length := Writing.length_puts _ _ _ start
  -- where the sample is written, in the ring whatever the loop before it has used
  set p_s := if v.p_s - v.base.count < 0 then v.p_s - v.base.count + w.source.length
    else v.p_s - v.base.count with hp
  have hmem : 0 ≤ p_s ∧ p_s < w.source.length := by
    rw [hp, hlength]
    split <;> omega
  have hnext : wrap (p_s + 1) w.source.length
      = (2048 + v.tail_s + 1 + 0) % 32768 := by
    rw [wrap_succ hmem.1 hmem.2, hlength, hsize, hp, hlength]
    split <;> omega
  have haccesses : (∀ a ∈ w.accesses ++ [.source p_s w.source.length], a.InRange) ↔
      ∀ a ∈ w.accesses, a.InRange := by
    rw [List.forall_mem_append, List.forall_mem_singleton]
    exact and_iff_left hmem
  refine ⟨(length_setCell _ _ _).trans hlength, rfl, le_rfl,
    show (0 : Int) ≤ PSOLA_MAX_T0 by decide, hnext, ⟨h.tuned.f0_nonneg, h.tuned.t0_eq⟩, ?_⟩
  show (∀ a ∈ w.accesses ++ [.source p_s w.source.length], a.InRange) ↔ _
  rw [haccesses, aligned_of_unvoiced hvoiced]
  constructor
  · -- the loop clears at least one cell
    intro hall
    have hturns : List.range (v.base.count + 1).toNat ≠ [] := by
      rw [ne_eq, List.range_eq_nil]
      omega
    have hfirst : 0 ≤ v.p_s - v.base.count :=
      (hall _ (Writing.first_mem_puts _ _ hturns start)).1
    omega
  · -- it starts in the ring
    intro hle
    have hlo : 0 ≤ start.ind := by
      show 0 ≤ v.p_s - v.base.count
      omega
    have hhi : start.ind < start.source.length := by
      show v.p_s - v.base.count < v.source.length
      omega
    refine (Writing.puts_inRange _ _ _ hlo hhi).2.mpr ⟨?_, ?_⟩
    · exact fun a ha => absurd ha List.not_mem_nil
    · exact fun _ _ a ha => absurd ha List.not_mem_nil

/-- A sample before the next period. -/
theorem Placed.wait (h : v.Placed) (random : Nat → K) (hvoiced : v.base.voiced = true)
    (hcount : 0 < v.base.count) :
    v.Advanced ⟨{ v with base := { v.base with count := v.base.count - 1 } }, random, []⟩ := by
  have hle := h.count_le
  refine ⟨rfl, rfl, ?_, ?_, ?_, ⟨h.tuned.f0_nonneg, h.tuned.t0_eq⟩, ?_⟩
  · show 0 ≤ v.base.count - 1
    omega
  · show v.base.count - 1 ≤ PSOLA_MAX_T0
    omega
  · show v.p_s = (PSOLA_MAX_T0 + v.tail_s + 1 + (v.base.count - 1)) % PSOLA_MAX_OUT_BUFFER_LENGTH
    rw [h.p_s_eq]
    congr 1
    omega
  · refine iff_of_true (fun a ha => absurd ha List.not_mem_nil) ?_
    rw [aligned_of_voiced hvoiced]
    omega

section Ordered

variable [IsStrictOrderedRing K] [FloorRing K]

/-- The length of the last pulse is not above the largest period. -/
theorem Placed.ct0_mem (h : v.Placed) : 0 ≤ v.ct0 ∧ v.ct0 ≤ PSOLA_MAX_T0 := by
  have hnonneg : 0 ≤ truncateHalf v.base.t0 := by
    refine truncateHalf_nonneg ?_
    rw [h.tuned.t0_eq]
    exact div_nonneg Vocoder.defaultSamplingRate_pos.le h.tuned.f0_nonneg
  rw [ct0]
  split
  · exact ⟨by decide, le_rfl⟩
  · exact ⟨hnonneg, not_lt.mp ‹_›⟩

/-- The period is rounded to nothing below half a sample. -/
theorem one_le_ct0_iff : 1 ≤ v.ct0 ↔ 1 ≤ v.base.t0 + v.base.t0 := by
  have hhalf : 1 / 2 ≤ v.base.t0 ↔ 1 ≤ v.base.t0 + v.base.t0 := by
    rw [div_le_iff₀ two_pos, mul_two]
  rw [← hhalf, ← one_le_truncateHalf_iff, ct0]
  split
  · rename_i hlong
    rw [PSOLA_MAX_T0_eq] at hlong ⊢
    exact iff_of_true (by decide) (by omega)
  · rfl

/-- A period begins. -/
theorem Placed.period (h : v.Placed) (libm : Libm K) (random : Nat → K)
    (hvoiced : v.base.voiced = true) (hcount : v.base.count ≤ 0) :
    v.Advanced (v.period libm random) := by
  obtain ⟨hct0, hct0'⟩ := h.ct0_mem
  obtain ⟨hp_s, hp_s'⟩ := h.p_s_mem
  have hsize := h.size_eq
  have hp_s_eq := h.p_s_eq
  have hcount0 : v.base.count = 0 := le_antisymm hcount h.count_nonneg
  rw [PSOLA_MAX_OUT_BUFFER_LENGTH_eq, PSOLA_MAX_T0_eq] at *
  obtain ⟨n, hn⟩ := Int.eq_ofNat_of_zero_le hct0
  have hn' : v.ct0.toNat = n := by omega
  have hpulse : (2 * v.ct0).toNat = 2 * n := by omega
  set ind := if v.p_s - v.ct0 < 0 then v.p_s - v.ct0 + v.source.length else v.p_s - v.ct0 with hind
  -- the period begins in the ring, since it is shorter than the ring
  have hmem : 0 ≤ ind ∧ ind < v.source.length := by
    rw [hind]
    split <;> omega
  set r := makepulse libm (2 * v.ct0).toNat with hr
  have hlength : r.1.length = 2 * n := by rw [hr, length_makepulse, hpulse]
  obtain ⟨hnext, haccesses⟩ := Writing.puts_puts_inRange (fun k => [.pulse k r.1.length])
    (fun k x => x + r.1.getD k 0) (fun k _ => r.1.getD k 0) (List.range v.ct0.toNat)
    (List.range' v.ct0.toNat v.ct0.toNat) (w := ⟨ind, v.source, r.2⟩) hmem.1 hmem.2
  set first := Writing.puts (List.range v.ct0.toNat) (fun k => [.pulse k r.1.length])
    (fun k x => x + r.1.getD k 0) ⟨ind, v.source, r.2⟩ with hfirst
  set w := Writing.puts (List.range' v.ct0.toNat v.ct0.toNat) (fun k => [.pulse k r.1.length])
    (fun k _ => r.1.getD k 0) first with hw
  have hsource : w.source.length = v.source.length :=
    (Writing.length_puts _ _ _ first).trans (Writing.length_puts _ _ _ _)
  -- the cells of the pulse that the loops read
  have hreads : ∀ k ∈ List.range v.ct0.toNat ++ List.range' v.ct0.toNat v.ct0.toNat,
      ∀ a ∈ [Access.pulse k r.1.length], a.InRange := by
    intro k hk
    rw [List.mem_append, List.mem_range, List.mem_range'_1] at hk
    rw [List.forall_mem_singleton]
    exact ⟨Int.natCast_nonneg k, Int.ofNat_lt.mpr (by omega)⟩
  have hend : w.ind = (ind + n + n) % 32768 := by
    rw [hnext, List.length_range, List.length_range', hn', hsize]
  refine ⟨hsource, rfl, hct0, hct0', ?_, ⟨h.tuned.f0_nonneg, h.tuned.t0_eq⟩, ?_⟩
  · -- from `ct0` before the position to `ct0` after it, and one more
    show wrap (w.ind + 1) w.source.length = (2048 + v.tail_s + 1 + v.ct0) % 32768
    rw [wrap_succ (by omega) (by omega), hend, hsource, hsize, hind]
    split <;> omega
  · -- the loops are in range, so that `makepulse` decides
    show (∀ a ∈ w.accesses, a.InRange) ↔ _
    rw [haccesses, and_iff_left hreads, makepulse_inRange_iff, aligned_of_voiced hvoiced,
      ← one_le_ct0_iff]
    omega

/-- Filling advances the position, and stays in the arrays when the vocoder is aligned. -/
theorem Placed.fill (h : v.Placed) (libm : Libm K) (random : Nat → K) :
    v.Advanced (v.fill libm random) := by
  rw [PsolaVocoder.fill]
  -- voiced and due for a period, voiced, unvoiced
  split
  · rename_i hvoiced
    split
    · rename_i hcount
      exact h.period libm random hvoiced hcount
    · rename_i hcount
      exact h.wait random hvoiced (not_le.mp hcount)
  · rename_i hvoiced
    exact h.noise random (Bool.eq_false_iff.mpr hvoiced)

/-- A sample is taken from the next cell of the ring. -/
theorem Placed.excite_tail_s (h : v.Placed) (libm : Libm K) (random : Nat → K) :
    (v.excite libm random).2.vocoder.tail_s = (v.tail_s + 1) % PSOLA_MAX_OUT_BUFFER_LENGTH := by
  have hfill := h.fill libm random
  have hsize := h.size_eq
  show wrap ((v.fill libm random).vocoder.tail_s + 1) (v.fill libm random).vocoder.source.length = _
  rw [hfill.tail_s_eq, hfill.length_eq,
    wrap_succ h.tail_s_nonneg (by rw [hsize]; exact h.tail_s_lt), hsize]

/-- **One call of `excite`** keeps the positions in their places. -/
theorem Placed.excite (h : v.Placed) (libm : Libm K) (random : Nat → K) :
    (v.excite libm random).2.vocoder.Placed := by
  have hfill := h.fill libm random
  have hsize := h.size_eq
  have hnext := h.excite_tail_s libm random
  have hlength : (v.excite libm random).2.vocoder.source.length = v.source.length :=
    (length_setCell _ _ _).trans hfill.length_eq
  refine ⟨by rw [hlength, hsize], ?_, ?_, hfill.count_nonneg, hfill.count_le, ?_, hfill.tuned⟩
  · rw [hnext]
    exact Int.emod_nonneg _ (by decide)
  · rw [hnext]
    exact Int.emod_lt_of_pos _ (by decide)
  · -- both positions have advanced by one
    rw [hnext]
    refine hfill.p_s_eq.trans ?_
    show (PSOLA_MAX_T0 + v.tail_s + 1 + (v.fill libm random).vocoder.base.count) % _
      = (PSOLA_MAX_T0 + _ + (v.fill libm random).vocoder.base.count) % _
    rw [PSOLA_MAX_OUT_BUFFER_LENGTH_eq]
    omega

/-- **When the indices of one call are in range.** -/
theorem Placed.excite_inRange_iff (h : v.Placed) (libm : Libm K) (random : Nat → K) :
    (∀ a ∈ (v.excite libm random).2.accesses, a.InRange) ↔ v.Aligned := by
  have hfill := h.fill libm random
  have hsize := h.size_eq
  have htail : Access.InRange
      (.source (v.fill libm random).vocoder.tail_s (v.fill libm random).vocoder.source.length) := by
    rw [hfill.tail_s_eq, hfill.length_eq]
    exact ⟨h.tail_s_nonneg, by rw [hsize]; exact h.tail_s_lt⟩
  rw [← hfill.inRange]
  show (∀ a ∈ (v.fill libm random).accesses ++ [_], a.InRange) ↔ _
  rw [List.forall_mem_append, List.forall_mem_singleton]
  exact and_iff_left htail

-- ---------------------------------------------------------------------------
-- Calls
-- ---------------------------------------------------------------------------

omit [Field K] [LinearOrder K] [IsStrictOrderedRing K] [FloorRing K] in
/-- The next frame changes nothing that the excitation reads. -/
theorem hop_eq (v : PsolaVocoder K) : ∃ hopLen tail_c countInitPop first, v.hop =
    { v with
      hopLen := hopLen
      tail_c := tail_c
      countInitPop := countInitPop
      base := { v.base with flagFirstPush := first } } := by
  rw [hop]
  split
  · exact ⟨_, _, _, _, rfl⟩
  · split
    · exact ⟨_, _, _, _, rfl⟩
    · split
      · simp only
        split
        · exact ⟨_, _, _, _, rfl⟩
        · exact ⟨_, _, _, _, rfl⟩
      · exact ⟨_, _, _, _, rfl⟩

omit [IsStrictOrderedRing K] [FloorRing K] in
/-- Nor does the filter. -/
theorem filter_eq (libm : Libm K) (v : PsolaVocoder K) (x : K) :
    ∃ c d hopLen tail_c countInitPop first pops, (v.filter libm x).2 =
      { v with
        c := c
        d := d
        hopLen := hopLen
        tail_c := tail_c
        countInitPop := countInitPop
        base := { v.base with flagFirstPush := first, nOfPopSinceLastPush := pops } } := by
  obtain ⟨hopLen, tail_c, countInitPop, first, hhop⟩ := hop_eq
    { v with
      c := _
      d := _
      base := { v.base with nOfPopSinceLastPush := v.base.nOfPopSinceLastPush + 1 } }
  exact ⟨_, _, hopLen, tail_c, countInitPop, first, _, hhop⟩

omit [IsStrictOrderedRing K] [FloorRing K] in
/-- Where the ring, the positions and the counter are left alone, and the pitch is in tune. -/
theorem Placed.congr (h : v.Placed) {w : PsolaVocoder K} (htuned : w.base.Tuned)
    (hsource : w.source = v.source) (htail : w.tail_s = v.tail_s) (hp_s : w.p_s = v.p_s)
    (hcount : w.base.count = v.base.count) : w.Placed := by
  refine ⟨?_, ?_, ?_, ?_, ?_, ?_, htuned⟩
  · rw [hsource]
    exact h.size_eq
  · rw [htail]
    exact h.tail_s_nonneg
  · rw [htail]
    exact h.tail_s_lt
  · rw [hcount]
    exact h.count_nonneg
  · rw [hcount]
    exact h.count_le
  · rw [hp_s, htail, hcount]
    exact h.p_s_eq

omit [IsStrictOrderedRing K] [FloorRing K] in
theorem Placed.filter (h : v.Placed) (libm : Libm K) (x : K) : (v.filter libm x).2.Placed := by
  obtain ⟨c, d, hopLen, tail_c, countInitPop, first, pops, hfilter⟩ := v.filter_eq libm x
  rw [hfilter]
  exact h.congr ⟨h.tuned.f0_nonneg, h.tuned.t0_eq⟩ rfl rfl rfl rfl

/-- **Every call** keeps the positions in their places. -/
theorem Placed.call (h : v.Placed) (libm : Libm K) (random : Nat → K) (c : Vocoder.Call K) :
    (v.call libm random c).2.1.Placed := by
  cases c with
  | push frame ignoreVoicing =>
    exact h.congr ⟨Vocoder.controlled_nonneg _ _ _, rfl⟩ rfl rfl rfl rfl
  | pop => exact (h.excite libm random).filter libm _
  | reset =>
    -- the excitation is not reset, and the pitch is the default one
    exact h.congr ⟨Vocoder.defaultPitch_pos.le, rfl⟩ rfl rfl rfl rfl
  | setPitch pitch action forceVoiced =>
    exact h.congr (h.tuned.call libm random (.setPitch pitch action forceVoiced)) rfl rfl rfl rfl
  | setVoiced forceVoiced =>
    exact h.congr (h.tuned.call libm random (.setVoiced forceVoiced)) rfl rfl rfl rfl
  | setAlpha alpha =>
    exact h.congr (h.tuned.call libm random (.setAlpha alpha)) rfl rfl rfl rfl
  | setVolume volume =>
    exact h.congr (h.tuned.call libm random (.setVolume volume)) rfl rfl rfl rfl

omit [FloorRing K] in
/-- The constructor sets the position to the start of the ring. -/
theorem placed_construct (am : Nat) (aalpha : K) (afprd aiprd astage apd : Int) (angain : Bool)
    (gamma actionValue : K) (cc : List K) :
    (construct am aalpha afprd aiprd astage apd angain gamma actionValue cc).Placed := by
  refine ⟨?_, le_rfl, ?_, le_rfl, ?_, ?_, Vocoder.tuned_construct _ _ _ _ _ _ _ _ _⟩
  · rw [construct, List.length_replicate]
    rfl
  · show (0 : Int) < PSOLA_MAX_OUT_BUFFER_LENGTH
    decide
  · show (0 : Int) ≤ PSOLA_MAX_T0
    decide
  · show PSOLA_MAX_T0 = (PSOLA_MAX_T0 + 0 + 0) % PSOLA_MAX_OUT_BUFFER_LENGTH
    decide

/-- What a pop leaves of the voicing, the counter and the action is what the excitation leaves
of them. -/
theorem Placed.pop_eq (h : v.Placed) (libm : Libm K) (random : Nat → K) :
    (v.pop libm random).2.1.base.voiced = (v.fill libm random).vocoder.base.voiced ∧
      (v.pop libm random).2.1.base.count = (v.fill libm random).vocoder.base.count ∧
      (v.pop libm random).2.1.base.action = (v.fill libm random).vocoder.base.action ∧
      (v.pop libm random).2.1.tail_s = (v.tail_s + 1) % PSOLA_MAX_OUT_BUFFER_LENGTH := by
  have htail := h.excite_tail_s libm random
  obtain ⟨c, d, hopLen, tail_c, countInitPop, first, pops, hfilter⟩ :=
    (v.excite libm random).2.vocoder.filter_eq libm (v.excite libm random).1
  rw [PsolaVocoder.pop]
  simp only
  rw [hfilter]
  exact ⟨rfl, rfl, rfl, htail⟩

/-- A pop of unvoiced speech. -/
theorem Placed.pop_unvoiced (h : v.Placed) (libm : Libm K) (random : Nat → K)
    (hvoiced : v.base.voiced = false) :
    (v.pop libm random).2.1.base.voiced = false ∧ (v.pop libm random).2.1.base.count = 0 ∧
      (v.pop libm random).2.1.base.action = v.base.action ∧
      (v.pop libm random).2.1.tail_s = (v.tail_s + 1) % PSOLA_MAX_OUT_BUFFER_LENGTH := by
  have hfill : v.fill libm random = v.noise random := by rw [PsolaVocoder.fill, hvoiced]; rfl
  have hpop := h.pop_eq libm random
  rw [hfill] at hpop
  exact ⟨hpop.1.trans hvoiced, hpop.2⟩

/-- A pop of voiced speech with which a period begins. -/
theorem Placed.pop_period (h : v.Placed) (libm : Libm K) (random : Nat → K)
    (hvoiced : v.base.voiced = true) (hcount : v.base.count ≤ 0) :
    (v.pop libm random).2.1.base.count = v.ct0 ∧
      (v.pop libm random).2.1.tail_s = (v.tail_s + 1) % PSOLA_MAX_OUT_BUFFER_LENGTH := by
  have hfill : v.fill libm random = v.period libm random := by
    rw [PsolaVocoder.fill, if_pos hvoiced, if_pos hcount]
  obtain ⟨-, hcount', -, htail⟩ := h.pop_eq libm random
  rw [hfill] at hcount'
  exact ⟨hcount', htail⟩

/-- **Silence** moves the position of the samples that are taken. -/
theorem Placed.silence (h : v.Placed) (libm : Libm K) (random : Nat → K)
    (hvoiced : v.base.voiced = false) (hcount : v.base.count = 0) (n : Nat) :
    let w := ((List.replicate n .pop).foldl (step libm) (v, random)).1
    w.Placed ∧ w.base.count = 0 ∧ w.base.action = v.base.action ∧
      w.tail_s = (v.tail_s + n) % PSOLA_MAX_OUT_BUFFER_LENGTH := by
  induction n generalizing v random with
  | zero =>
    refine ⟨h, hcount, rfl, ?_⟩
    rw [Nat.cast_zero, Int.add_zero]
    exact (Int.emod_eq_of_lt h.tail_s_nonneg h.tail_s_lt).symm
  | succ n ih =>
    obtain ⟨hvoiced', hcount', haction, htail⟩ := h.pop_unvoiced libm random hvoiced
    obtain ⟨hplaced, hcount'', haction', htail'⟩ :=
      ih (h.call libm random .pop) (v.pop libm random).2.2 hvoiced' hcount'
    refine ⟨hplaced, hcount'', haction'.trans haction, htail'.trans ?_⟩
    show ((v.pop libm random).2.1.tail_s + n) % _ = _
    rw [htail, Int.emod_add_emod, Nat.cast_succ, Int.add_assoc, Int.add_comm 1]

-- ---------------------------------------------------------------------------
-- Runs
-- ---------------------------------------------------------------------------

/-- The indices that a call uses in `source` and `pulse`. -/
def accesses (libm : Libm K) (v : PsolaVocoder K) (random : Nat → K) :
    Vocoder.Call K → List Access
  | .pop => (v.excite libm random).2.accesses
  | _ => []

/-- Both positions are in the ring. -/
structure InRing (v : PsolaVocoder K) : Prop where
  p_s_nonneg : 0 ≤ v.p_s
  p_s_lt : v.p_s < v.source.length
  tail_s_nonneg : 0 ≤ v.tail_s
  tail_s_lt : v.tail_s < v.source.length

/-- A call that uses indices in range, and leaves positions in the ring. -/
def Safe (libm : Libm K) (s : PsolaVocoder K × (Nat → K)) (c : Vocoder.Call K) : Prop :=
  (∀ a ∈ accesses libm s.1 s.2 c, a.InRange) ∧ (step libm s c).1.InRing

/-- A pop of an aligned vocoder, or another call. -/
def KeepsAligned (v : PsolaVocoder K) : Vocoder.Call K → Prop
  | .pop => v.Aligned
  | _ => True

omit [FloorRing K] [IsStrictOrderedRing K] in
/-- A placed vocoder has both positions in the ring. -/
theorem Placed.inRing (h : v.Placed) : v.InRing := by
  obtain ⟨hp_s, hp_s'⟩ := h.p_s_mem
  have hsize := h.size_eq
  exact ⟨hp_s, by omega, h.tail_s_nonneg, by rw [hsize]; exact h.tail_s_lt⟩

/-- A call stays in its arrays as long as the pulses stay aligned. -/
theorem Placed.safe_iff (h : v.Placed) (libm : Libm K) (random : Nat → K) (c : Vocoder.Call K) :
    Safe libm (v, random) c ↔ v.KeepsAligned c := by
  show (∀ a ∈ accesses libm v random c, a.InRange) ∧ (v.call libm random c).2.1.InRing ↔ _
  rw [and_iff_left (h.call libm random c).inRing]
  cases c with
  | pop => exact h.excite_inRange_iff libm random
  | _ => exact iff_of_true (fun a ha => absurd ha List.not_mem_nil) trivial

/-- A period that reaches over the end of the ring when it begins, and is interrupted by
unvoiced speech after its first sample. -/
theorem Placed.not_safe_of_interrupted (h : v.Placed) (hcount : v.base.count = 0) (libm : Libm K)
    (random : Nat → K) (frame frame' : Frame K) (hvoiced : frame.voiced = true)
    (hunvoiced : frame'.voiced = false)
    (hover : PSOLA_MAX_OUT_BUFFER_LENGTH ≤ (PSOLA_MAX_T0 + (v.tail_s + 1)) %
      PSOLA_MAX_OUT_BUFFER_LENGTH + (v.prepare libm frame frame.voiced false).ct0) :
    ¬ StepsMeet (step libm) (Safe libm) (v, random)
      [.push frame false, .pop, .push frame' false, .pop] := by
  -- it is the last pop that is not safe
  rintro ⟨-, -, -, hlast, -⟩
  have hbegin := h.call libm random (.push frame false)
  obtain ⟨hbegun, htail⟩ := hbegin.pop_period libm random hvoiced hcount.le
  have hpopped := hbegin.call libm random .pop
  have hend := hpopped.call libm random (.push frame' false)
  have haligned : Aligned _ := (hend.safe_iff libm _ .pop).mp hlast
  rw [aligned_of_unvoiced hunvoiced, hend.count_le_p_s_iff] at haligned
  -- what is left of the period, and where the samples are taken
  have hcount' : ((v.prepare libm frame frame.voiced false).pop libm random).2.1.base.count
      = (v.prepare libm frame frame.voiced false).ct0 := hbegun
  have htail' : ((v.prepare libm frame frame.voiced false).pop libm random).2.1.tail_s
      = (v.tail_s + 1) % PSOLA_MAX_OUT_BUFFER_LENGTH := htail
  change (PSOLA_MAX_T0 + ((v.prepare libm frame frame.voiced false).pop libm random).2.1.tail_s)
      % PSOLA_MAX_OUT_BUFFER_LENGTH
    + ((v.prepare libm frame frame.voiced false).pop libm random).2.1.base.count < _ at haligned
  rw [hcount', htail', PSOLA_MAX_OUT_BUFFER_LENGTH_eq] at haligned
  rw [PSOLA_MAX_OUT_BUFFER_LENGTH_eq] at hover
  omega

/--
**When the indices of a run are in range.** From any new vocoder: every call of a run uses
indices in range and leaves both positions in the ring, exactly when every pop of the run is
of an aligned vocoder. -/
theorem safe_iff_aligned (libm : Libm K) (am : Nat) (aalpha : K) (afprd aiprd astage apd : Int)
    (angain : Bool) (gamma actionValue : K) (cc : List K) (random : Nat → K)
    (calls : List (Vocoder.Call K)) :
    let v := construct am aalpha afprd aiprd astage apd angain gamma actionValue cc
    StepsMeet (step libm) (Safe libm) (v, random) calls ↔
      StepsMeet (step libm) (fun s c => s.1.KeepsAligned c) (v, random) calls := by
  refine stepsMeet_congr (I := fun s : PsolaVocoder K × (Nat → K) => s.1.Placed) ?_ ?_ calls ?_
  · exact fun s c h => h.call libm s.2 c
  · exact fun s c h => h.safe_iff libm s.2 c
  · exact placed_construct am aalpha afprd aiprd astage apd angain gamma actionValue cc

end Ordered

/-- A vocoder with the default arguments. -/
def new : PsolaVocoder ℚ := construct 34 (55 / 100) 240 1 0 5 false 0 0 []

/-- A frame of 100 Hz that is not voiced. -/
def whispered : Frame ℚ := { Vocoder.pitched 100 with voiced := false }

/-- A voiced frame, with the first three samples of its period, and one that is not. -/
theorem safe_iff_aligned_pitched :
    StepsMeet (step Libm.trivial) (Safe Libm.trivial)
        (construct 34 (55 / 100) 240 1 0 5 false 0 0 [], fun _ => 0)
        [.push (Vocoder.pitched 100) false, .pop, .pop, .pop, .push whispered false, .pop] ↔
      StepsMeet (step Libm.trivial) (fun s c => s.1.KeepsAligned c)
        (construct 34 (55 / 100) 240 1 0 5 false 0 0 [], fun _ => 0)
        [.push (Vocoder.pitched 100) false, .pop, .pop, .pop, .push whispered false, .pop] :=
  safe_iff_aligned Libm.trivial 34 (55 / 100) 240 1 0 5 false 0 0 [] (fun _ => 0) _

theorem placed_new : new.Placed := placed_construct _ _ _ _ _ _ _ _ _ _

/-- After `n` samples of silence one sample of a voiced frame of 100 Hz, and then silence. -/
def interrupted (n : Nat) : List (Vocoder.Call ℚ) :=
  (.push whispered false :: List.replicate n .pop) ++
    [.push (Vocoder.pitched 100) false, .pop, .push whispered false, .pop]

/-- The period of a frame is the sampling rate by its pitch. -/
theorem prepare_t0 (v : PsolaVocoder ℚ) (hnone : v.base.action = noaction) {f : ℚ} (hf : 0 ≤ f) :
    (v.prepare Libm.trivial (Vocoder.pitched f) true false).base.t0 = 48000 / f := by
  show ((48000 : Int) : ℚ) / Vocoder.controlled v.base.action v.base.actionValue f = _
  rw [hnone]
  exact congrArg _ (Vocoder.audiblePitch_of_nonneg hf)

/-- The period begins where the silence has brought its position. -/
theorem not_safe_of_silence {n : Nat}
    (hn : 32768 ≤ (2048 + ((0 + (n : Int)) % 32768 + 1)) % 32768 + 480) :
    ¬ StepsMeet (step Libm.trivial) (Safe Libm.trivial) (new, fun _ => 0) (interrupted n) := by
  intro hsafe
  -- a whispered frame, and then `n` samples of silence
  have hpushed := placed_new.call Libm.trivial (fun _ => 0) (.push whispered false)
  obtain ⟨hplaced, hcount, haction, htail⟩ :=
    hpushed.silence Libm.trivial (fun _ => 0) rfl rfl n
  refine hplaced.not_safe_of_interrupted hcount Libm.trivial _ (Vocoder.pitched 100) whispered
    rfl rfl ?_ (stepsMeet_append.mp hsafe).2
  have hperiod : truncateHalf ((48000 : ℚ) / 100) = 480 := by
    norm_num [truncateHalf, truncate, Int.floor_eq_iff]
  -- the pulse of 100 Hz is 480 samples long and would pass the end of the ring
  have hct0 : ∀ v : PsolaVocoder ℚ, v.base.action = noaction →
      (v.prepare Libm.trivial (Vocoder.pitched 100) true false).ct0 = 480 := by
    intro v hnone
    rw [ct0, prepare_t0 v hnone (by norm_num), hperiod]
    rfl
  rw [htail]
  exact hn.trans_eq (congrArg _ (hct0 _ haction).symm)

/-- With 30400 samples of silence before it, a period of 480 samples is interrupted where it
reaches over the end of the ring; and a pitch of 192000 Hz has a period of a quarter of a
sample, for which there is no pulse to write to. -/
theorem not_safe_interrupted :
    ¬ StepsMeet (step Libm.trivial) (Safe Libm.trivial) (new, fun _ => 0) (interrupted 30400) ∧
      ¬ StepsMeet (step Libm.trivial) (Safe Libm.trivial) (new, fun _ => 0)
        [.push (Vocoder.pitched 192000) false, .pop] := by
  refine ⟨not_safe_of_silence (by decide), ?_⟩
  rintro ⟨-, hpop, -⟩
  have hpushed := placed_new.call Libm.trivial (fun _ => 0) (.push (Vocoder.pitched 192000) false)
  have haligned : Aligned _ := (hpushed.safe_iff Libm.trivial _ .pop).mp hpop
  have hlong := (aligned_of_voiced rfl).mp haligned le_rfl
  have ht0 : (1 : ℚ) ≤ 48000 / 192000 + 48000 / 192000 := by
    rw [← prepare_t0 new rfl (by norm_num)]
    exact hlong
  norm_num at ht0

end PsolaVocoder

end Vox.Mage
