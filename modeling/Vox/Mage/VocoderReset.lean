import Vox.Lib.Rounding
import Vox.Lib.Run
import Vox.Mage.Vocoder
import Mathlib.Analysis.SpecialFunctions.Log.Basic
import Mathlib.Analysis.SpecialFunctions.Pow.Real
import Mathlib.Analysis.SpecialFunctions.Sqrt
import Mathlib.Data.List.GetD

/-!
# MAGE — resetting the vocoder

The filter of the vocoder, `pop`, and `reset`, which is documented to set the members to
the values that the constructor sets. It leaves four of them alone: the voicing, the
counter to the next pulse, the counter of pops, and the value of the last pitch control.

* `Alike` — two vocoders that differ in members that do not show. A push and a pop keep
  it, so that both give the same samples (`samples_eq`).
* `restored_iff` — a reset vocoder gives the samples of a new one exactly when it was
  unvoiced with no pulse to come.

The random numbers of an unvoiced excitation are a stream, of which each takes one.
-/

namespace Vox.Mage

open Lib

/-- The functions of the C mathematical library, on the real numbers. -/
noncomputable def Libm.real : Libm ℝ := ⟨Real.exp, Real.log, Real.rpow, Real.sqrt⟩

/-- What a reset rests on of the mathematical library. -/
structure Libm.Lawful {K : Type*} [Field K] [LinearOrder K] (libm : Libm K) : Prop where
  exp_pos : ∀ x, 0 < libm.exp x
  sqrt_pos : ∀ x, 0 < x → 0 < libm.sqrt x

theorem Libm.lawful_real : Libm.real.Lawful := ⟨Real.exp_pos, fun _ => Real.sqrt_pos.mpr⟩

variable {K : Type*} [Field K]

/-! ## The filters

An array is a function of the index, and a part of it starts at an offset. -/

section Filters

variable (x : K) (b : Nat → K) (m : Nat) (a : K)

/-- `mlsafir`, on the part of `d` from `o` on. -/
def mlsafir (o : Nat) (d : Nat → K) : K × (Nat → K) :=
  let aa := 1 - a * a
  let d := Function.update d o x
  let d := Function.update d (o + 1) (aa * d o + a * d (o + 1))
  let s := (List.range' 2 (m - 1)).foldl
    (fun (s : K × (Nat → K)) i =>
      let d_i := s.2 (o + i) + a * (s.2 (o + i + 1) - s.2 (o + i - 1))
      (s.1 + d_i * b i, Function.update s.2 (o + i) d_i)) ((0 : K), d)
  -- `d[i] = d[i - 1]`, from the last one down
  (s.1, fun j => if o + 2 ≤ j ∧ j ≤ o + m + 1 then s.2 (j - 1) else s.2 j)

/-- A turn of the loops of `mlsadf1` and `mlsadf2`, where `pt[i]` is known. -/
def padeTurn (pade_i pt_i : K) (i : Nat) (s : K × K) : K × K :=
  let v := pt_i * pade_i
  (s.1 + (if i % 2 = 1 then v else -v), s.2 + v)

/-- Turn `i = k + 1` of `mlsadf1`. -/
def mlsadf1Turn (pade : Nat → K) (pd k : Nat) (s : (K × K) × (Nat → K)) :
    (K × K) × (Nat → K) :=
  let aa := 1 - a * a
  let i := k + 1
  let pt := pd + 1
  let d_i := aa * s.2 (pt + (i - 1)) + a * s.2 i
  let pt_i := d_i * b 1
  (padeTurn (pade i) pt_i i s.1, Function.update (Function.update s.2 i d_i) (pt + i) pt_i)

/-- `mlsadf1`: the output, and `d`. -/
def mlsadf1 (pade : Nat → K) (pd : Nat) (d : Nat → K) : K × (Nat → K) :=
  let s := (List.range pd).foldr (mlsadf1Turn b a pade pd) ((x, (0 : K)), d)
  (s.1.2 + s.1.1, Function.update s.2 (pd + 1) s.1.1)

/-- Turn `i = k + 1` of `mlsadf2`. -/
def mlsadf2Turn (pade : Nat → K) (pd o k : Nat) (s : (K × K) × (Nat → K)) :
    (K × K) × (Nat → K) :=
  let i := k + 1
  let pt := o + pd * (m + 2)
  let fir := mlsafir (s.2 (pt + (i - 1))) b m a (o + (i - 1) * (m + 2)) s.2
  (padeTurn (pade i) fir.1 i s.1, Function.update fir.2 (pt + i) fir.1)

/-- `mlsadf2`, on the part of `d` from `o` on. -/
def mlsadf2 (pade : Nat → K) (pd o : Nat) (d : Nat → K) : K × (Nat → K) :=
  let s := (List.range pd).foldr (mlsadf2Turn b m a pade pd o) ((x, (0 : K)), d)
  (s.1.2 + s.1.1, Function.update s.2 (o + pd * (m + 2)) s.1.1)

/-- The coefficients of the Padé approximation, order by order. -/
def padesptk : List ℚ :=
  [1,
    1, 0, 1, 0,
    0, 1, 0, 0,
    0, 1, 4999273 / 10000000, 1067005 / 10000000,
    1170221 / 100000000, 5656279 / 10000000000, 1, 4999391 / 10000000,
    1107098 / 10000000, 1369984 / 100000000, 9564853 / 10000000000, 3041721 / 100000000000]

/-- `mlsadf` -/
def mlsadf (pd : Nat) (d : Nat → K) : K × (Nat → K) :=
  let ppadesptk (i : Nat) : K := (padesptk.getD (pd * (pd + 1) / 2 + i) 0 : ℚ)
  let r := mlsadf1 x b a ppadesptk pd d
  mlsadf2 r.1 b m a ppadesptk pd (2 * (pd + 1)) r.2

/-- `mglsadff`, on the part of `d` from `o` on. -/
def mglsadff (o : Nat) (d : Nat → K) : K × (Nat → K) :=
  let aa := 1 - a * a
  let s := (List.range' 1 (m - 1)).foldl
    (fun (s : K × (Nat → K)) i =>
      let d_i := s.2 (o + i) + a * (s.2 (o + i + 1) - s.2 (o + i - 1))
      (s.1 + d_i * b (i + 1), Function.update s.2 (o + i) d_i)) (d o * b 1, d)
  let x := x - s.1
  let shifted := fun j => if o + 1 ≤ j ∧ j ≤ o + m then s.2 (j - 1) else s.2 j
  (x, Function.update shifted o (a * shifted o + aa * x))

/-- `mglsadf` -/
def mglsadf (n : Nat) (d : Nat → K) : K × (Nat → K) :=
  (List.range n).foldl (fun s i => mglsadff s.1 b m a (i * (m + 1)) s.2) (x, d)

/-- Without coefficients the FIR part gives nothing. -/
theorem mlsafir_of_zero {b : Nat → K} (hb : ∀ i, b i = 0) (o : Nat) (d : Nat → K) :
    (mlsafir x b m a o d).1 = 0 := by
  rw [mlsafir]
  refine foldl_invariant (I := fun s : K × (Nat → K) => s.1 = 0) ?_ _ _ rfl
  intro s i hs
  show s.1 + _ * b i = 0
  rw [hs, hb i, mul_zero, add_zero]

/-- Nothing is added for a stage whose coefficient is zero. -/
theorem padeTurn_zero (pade_i : K) (i : Nat) (s : K × K) : padeTurn pade_i 0 i s = s := by
  simp [padeTurn]

/-- Without coefficients a pass hands its input on. -/
theorem mlsadf1_of_zero {b : Nat → K} (hb : ∀ i, b i = 0) (pade : Nat → K) (pd : Nat)
    (d : Nat → K) : (mlsadf1 x b a pade pd d).1 = x := by
  have hturn : ∀ k s, (mlsadf1Turn b a pade pd k s).1 = s.1 := by
    intro k s
    rw [mlsadf1Turn]
    simp only [hb 1, mul_zero, padeTurn_zero]
  rw [mlsadf1, foldr_keeps Prod.fst hturn]
  exact zero_add x

/-- Without coefficients the filter passes its input on. -/
theorem mlsadf2_of_zero {b : Nat → K} (hb : ∀ i, b i = 0) (pade : Nat → K) (pd o : Nat)
    (d : Nat → K) : (mlsadf2 x b m a pade pd o d).1 = x := by
  have hturn : ∀ k s, (mlsadf2Turn b m a pade pd o k s).1 = s.1 := by
    intro k s
    rw [mlsadf2Turn]
    simp only [mlsafir_of_zero _ m a hb, padeTurn_zero]
  rw [mlsadf2, foldr_keeps Prod.fst hturn]
  exact zero_add x

/-- **Without coefficients what goes in comes out.** -/
theorem mlsadf_of_zero {b : Nat → K} (hb : ∀ i, b i = 0) (pd : Nat) (d : Nat → K) :
    (mlsadf x b m a pd d).1 = x := by
  rw [mlsadf, mlsadf2_of_zero _ m a hb, mlsadf1_of_zero x a hb]

end Filters

namespace Vocoder

variable [LinearOrder K]

-- ---------------------------------------------------------------------------
-- The members
-- ---------------------------------------------------------------------------

def defaultAlpha : K := 55 / 100

/-- `Vocoder::Vocoder()`. The members `gamma` and `actionValue` are not set. -/
def new (gamma actionValue : K) : Vocoder K :=
  let m := nOfMGCs - 1
  let pd := defaultPadeOrder
  { alpha := defaultAlpha
    gamma := gamma
    action := noaction
    voiced := false
    f0 := defaultPitch
    t0 := defaultSamplingRate / defaultPitch
    volume := 1
    c := List.replicate (m + 1) 0
    cc := List.replicate (m + 1) 0
    inc := List.replicate (m + 1) 0
    d := List.replicate (3 * (pd.toNat + 1) + pd.toNat * (m + 2)) 0
    m := m
    fprd := defaultFrameRate
    iprd := defaultInterpFrameRate
    stage := defaultGamma
    pd := pd
    ngain := false
    flagFirstPush := true
    count := 0
    actionValue := actionValue
    nOfPopSinceLastPush := 0 }

/-- `Vocoder::Vocoder( am, aalpha, afprd, aiprd, astage, apd, angain )`. It does not set
`actionValue`, and sets `gamma` for the MGLSA filter only. -/
def construct (am : Nat) (aalpha : K) (afprd aiprd astage apd : Int) (angain : Bool)
    (gamma actionValue : K) : Vocoder K :=
  { alpha := aalpha
    gamma := if astage ≠ 0 then -1 / (astage : K) else gamma
    action := noaction
    voiced := false
    f0 := defaultPitch
    t0 := defaultSamplingRate / defaultPitch
    volume := 1
    c := List.replicate (am + 1) 0
    cc := List.replicate (am + 1) 0
    inc := List.replicate (am + 1) 0
    d :=
      if astage ≠ 0 then List.replicate ((am + 1) * astage.toNat) 0
      else List.replicate (3 * (apd.toNat + 1) + apd.toNat * (am + 2)) 0
    m := am
    fprd := afprd
    iprd := aiprd
    stage := astage
    pd := apd
    ngain := angain
    flagFirstPush := true
    count := 0
    actionValue := actionValue
    nOfPopSinceLastPush := 0 }

omit [LinearOrder K] in
/-- The default arguments. -/
theorem new_eq_construct (gamma actionValue : K) :
    new gamma actionValue = construct (nOfMGCs - 1) defaultAlpha defaultFrameRate
      defaultInterpFrameRate defaultGamma defaultPadeOrder false gamma actionValue := rfl

def setVoiced (v : Vocoder K) (forceVoiced : Bool) : Vocoder K := { v with voiced := forceVoiced }

def setAlpha (v : Vocoder K) (alpha : K) : Vocoder K := { v with alpha := alpha }

def setVolume (v : Vocoder K) (volume : K) : Vocoder K := { v with volume := volume }

/-- `Vocoder::reset`. -/
def reset (v : Vocoder K) : Vocoder K :=
  { v with
    c := v.c.map fun _ => 0
    cc := v.cc.map fun _ => 0
    inc := v.inc.map fun _ => 0
    d := v.d.map fun _ => 0
    f0 := defaultPitch
    t0 := defaultSamplingRate / defaultPitch
    action := noaction
    alpha := defaultAlpha
    gamma := defaultGamma
    stage := defaultGamma
    pd := defaultPadeOrder
    volume := defaultVolume
    flagFirstPush := true }

/-- `Vocoder::excite`: the sample, and what is left of the random numbers. -/
def excite [FloorRing K] (libm : Libm K) (v : Vocoder K) (random : Nat → K) :
    K × Vocoder K × (Nat → K) :=
  if v.voiced then
    if v.count ≤ 0 then (libm.sqrt v.t0, { v with count := truncate v.t0 }, random)
    else (0, { v with count := v.count - 1 }, random)
  else (random 0, { v with count := 0 }, fun k => random (k + 1))

/-- `Vocoder::pop`, with the excitation `x`. -/
def filter (libm : Libm K) (v : Vocoder K) (x : K) : K × Vocoder K :=
  let b (i : Nat) : K := v.c.getD i 0
  let d (i : Nat) : K := v.d.getD i 0
  let x := if v.ngain then x * b 0 else x * libm.exp (b 0)
  let r :=
    -- MGLSA, MLSA
    if v.stage ≠ 0 then mglsadf x b v.m v.alpha v.stage.toNat d
    else mlsadf x b v.m v.alpha v.pd.toNat d
  -- when the next filter is reached, stop interpolation
  let c :=
    if v.nOfPopSinceLastPush < v.fprd.tdiv v.iprd then List.zipWith (· + ·) v.c v.inc else v.c
  (if v.volume ≥ 0 then v.volume * r.1 else r.1,
    { v with
      c := c
      d := (List.range v.d.length).map r.2
      nOfPopSinceLastPush := v.nOfPopSinceLastPush + 1 })

def pop [FloorRing K] (libm : Libm K) (v : Vocoder K) (random : Nat → K) :
    K × Vocoder K × (Nat → K) :=
  let s := v.excite libm random
  let r := s.2.1.filter libm s.1
  (r.1, r.2, s.2.2)

/-- A call to the vocoder. -/
inductive Call (K : Type*)
  | push (frame : Frame K) (ignoreVoicing : Bool)
  | pop
  | setPitch (pitch : K) (action : Int) (forceVoiced : Bool)
  | setVoiced (forceVoiced : Bool)
  | setAlpha (alpha : K)
  | setVolume (volume : K)
  | reset

/-- A call that plays frames: a pop, or a push that takes the voicing of the frame. -/
def Call.Plays : Call K → Prop
  | .push _ ignoreVoicing => ignoreVoicing = false
  | .pop => True
  | _ => False

/-- What a call returns, and leaves of the vocoder and of the random numbers. -/
def call [FloorRing K] (libm : Libm K) (v : Vocoder K) (random : Nat → K) :
    Call K → Option K × Vocoder K × (Nat → K)
  | .push frame ignoreVoicing =>
    (none, v.prepare libm frame frame.voiced ignoreVoicing, random)
  | .pop =>
    let r := v.pop libm random
    (some r.1, r.2)
  | .setPitch pitch action forceVoiced => (none, v.setPitch pitch action forceVoiced, random)
  | .setVoiced forceVoiced => (none, v.setVoiced forceVoiced, random)
  | .setAlpha alpha => (none, v.setAlpha alpha, random)
  | .setVolume volume => (none, v.setVolume volume, random)
  | .reset => (none, v.reset, random)

/-- The vocoder after some calls. -/
def run [FloorRing K] (libm : Libm K) (v : Vocoder K) (random : Nat → K) (calls : List (Call K)) :
    Vocoder K :=
  (calls.foldl (fun s c => (call libm s.1 s.2 c).2) (v, random)).1

/-- The samples that some calls return. -/
def samples [FloorRing K] (libm : Libm K) : Vocoder K → (Nat → K) → List (Call K) → List K
  | _, _, [] => []
  | v, random, c :: cs =>
    let r := call libm v random c
    r.1.toList ++ samples libm r.2.1 r.2.2 cs

/-- An excitation changes nothing but the counter. -/
theorem excite_eq [FloorRing K] (libm : Libm K) (v : Vocoder K) (random : Nat → K) :
    ∃ count, (v.excite libm random).2.1 = { v with count := count } := by
  rw [Vocoder.excite]
  split
  · split
    · exact ⟨_, rfl⟩
    · exact ⟨_, rfl⟩
  · exact ⟨_, rfl⟩

/-- What a pop changes: the two counters, the memory of the filter, and the coefficients until
they have reached their target. -/
theorem pop_eq [FloorRing K] (libm : Libm K) (v : Vocoder K) (random : Nat → K) :
    ∃ count d, (v.pop libm random).2.1 =
      { v with
        count := count
        d := d
        c := if v.nOfPopSinceLastPush < v.fprd.tdiv v.iprd then List.zipWith (· + ·) v.c v.inc
          else v.c
        nOfPopSinceLastPush := v.nOfPopSinceLastPush + 1 } := by
  obtain ⟨count, hcount⟩ := v.excite_eq libm random
  rw [Vocoder.pop, hcount]
  exact ⟨count, _, rfl⟩

-- ---------------------------------------------------------------------------
-- Vocoders that sound alike
-- ---------------------------------------------------------------------------

/-- The other vocoder differs in members that do not show: `gamma` and the value of the
pitch control, which are not used; a counter that is at 0 or below; and the number of
pops, while there is nothing to interpolate. -/
inductive Alike (v : Vocoder K) : Vocoder K → Prop
  | intro (gamma actionValue : K) (count pops : Int) (action : v.action = noaction)
    (stage : v.stage = 0) (pulse : v.count = count ∨ (v.count ≤ 0 ∧ count ≤ 0))
    (still : v.nOfPopSinceLastPush = pops ∨ v.inc = List.replicate v.c.length 0) :
    Alike v { v with gamma := gamma, actionValue := actionValue, count := count,
                     nOfPopSinceLastPush := pops }

variable {v w : Vocoder K} (libm : Libm K)

/-- The excitation of vocoders that are alike: one sample, and they stay alike. -/
theorem Alike.excite [FloorRing K] (h : v.Alike w) (random : Nat → K) :
    (w.excite libm random).1 = (v.excite libm random).1 ∧
      (w.excite libm random).2.2 = (v.excite libm random).2.2 ∧
      (v.excite libm random).2.1.Alike (w.excite libm random).2.1 := by
  cases h with
  | intro gamma actionValue count pops action stage pulse still =>
    rw [Vocoder.excite, Vocoder.excite]
    simp only
    cases v.voiced with
    | false => exact ⟨rfl, rfl, .intro _ _ _ _ action stage (.inl rfl) still⟩
    | true =>
      simp only [if_true]
      by_cases hpulse : v.count ≤ 0
      · -- both are due for a pulse, which sets the counters alike
        have hcount : count ≤ 0 := by
          rcases pulse with rfl | ⟨-, hcount⟩
          · exact hpulse
          · exact hcount
        rw [if_pos hpulse, if_pos hcount]
        exact ⟨rfl, rfl, .intro _ _ _ _ action stage (.inl rfl) still⟩
      · obtain rfl : v.count = count := pulse.resolve_right fun hle => hpulse hle.1
        simp only [if_neg hpulse, true_and]
        exact .intro _ _ _ _ action stage (.inl rfl) still

omit [LinearOrder K] in
theorem zipWith_add_replicate (c : List K) :
    List.zipWith (· + ·) c (List.replicate c.length 0) = c := by
  induction c with
  | nil => rfl
  | cons x c ih => rw [List.length_cons, List.replicate_succ, List.zipWith_cons_cons, ih, add_zero]

/-- The filter of vocoders that are alike: one sample, and they stay alike. -/
theorem Alike.filter (h : v.Alike w) (x : K) :
    (w.filter libm x).1 = (v.filter libm x).1 ∧ (v.filter libm x).2.Alike (w.filter libm x).2 := by
  cases h with
  | intro gamma actionValue count pops action stage pulse still =>
    refine ⟨rfl, ?_⟩
    rcases still with rfl | still
    · -- the same number of pops is left to interpolate
      exact .intro gamma actionValue count _ action stage pulse (.inl rfl)
    · -- nothing is added to the coefficients
      have hkeep : ∀ n : Int, (if n < v.fprd.tdiv v.iprd then List.zipWith (· + ·) v.c v.inc
          else v.c) = v.c := by
        intro n
        rw [still, zipWith_add_replicate, ite_self]
      rw [Vocoder.filter, Vocoder.filter]
      simp only [hkeep]
      exact .intro gamma actionValue count _ action stage pulse (.inr still)

/-- With stage 0 the coefficients are those of the spectrum, warped. -/
theorem coefficients_of_stage (hstage : v.stage = 0) (frame : Frame K) :
    coefficients libm v frame
      = mc2b ((List.range (v.m + 1)).map (frame.streams mgcStreamIndex)) v.alpha := by
  rw [coefficients, if_neg (fun hne => hne hstage)]

/-- Frames keep vocoders alike, whatever their controls hold. -/
theorem Alike.prepare (h : v.Alike w) (frame : Frame K) (voiced : Bool) :
    (v.prepare libm frame voiced false).Alike (w.prepare libm frame voiced false) := by
  cases h with
  | intro gamma actionValue count pops action stage pulse still =>
    have hv := coefficients_of_stage libm stage frame
    have hw := coefficients_of_stage libm (v := { v with
      gamma := gamma, actionValue := actionValue, count := count,
      nOfPopSinceLastPush := pops }) stage frame
    -- the value of the control is not looked at
    have hf0 : ∀ overwritten shifted scaled kept : K,
        (if v.action = overwrite then overwritten else if v.action = shift then shifted
          else if v.action = scale then scaled else kept) = kept := by
      intro overwritten shifted scaled kept
      rw [action]
      rfl
    rw [Vocoder.prepare, Vocoder.prepare]
    simp only [hv, hw, hf0]
    refine Alike.intro gamma actionValue count 0 ?_ ?_ ?_ ?_
    · exact action
    · exact stage
    · exact pulse
    · exact .inl rfl

/-- A call that plays frames keeps two vocoders alike, and returns the same. -/
theorem Alike.call [FloorRing K] (h : v.Alike w) {c : Call K} (hc : c.Plays) (random : Nat → K) :
    (w.call libm random c).1 = (v.call libm random c).1 ∧
      (w.call libm random c).2.2 = (v.call libm random c).2.2 ∧
      (v.call libm random c).2.1.Alike (w.call libm random c).2.1 := by
  cases c with
  | push frame ignoreVoicing =>
    obtain rfl : ignoreVoicing = false := hc
    exact ⟨rfl, rfl, h.prepare libm frame frame.voiced⟩
  | pop =>
    -- a sample is excited and then filtered
    obtain ⟨hsample, hrest, hexcited⟩ := h.excite libm random
    obtain ⟨hpopped, hafter⟩ := hexcited.filter libm (v.excite libm random).1
    simp only [Vocoder.call, Vocoder.pop, hsample, hrest, hpopped, true_and]
    exact hafter
  | setPitch pitch action forceVoiced => exact hc.elim
  | setVoiced forceVoiced => exact hc.elim
  | setAlpha alpha => exact hc.elim
  | setVolume volume => exact hc.elim
  | reset => exact hc.elim

/-- **Vocoders that are alike give the same samples.** -/
theorem Alike.samples_eq [FloorRing K] {later : List (Call K)} (hlater : ∀ c ∈ later, c.Plays)
    (h : v.Alike w) (random : Nat → K) :
    samples libm w random later = samples libm v random later := by
  induction later generalizing v w random with
  | nil => rfl
  | cons c cs ih =>
    obtain ⟨hsample, hrest, hnext⟩ := h.call libm (hlater c List.mem_cons_self) random
    rw [samples, samples, hsample, hrest]
    exact congrArg _ (ih (fun c hc => hlater c (List.mem_cons_of_mem _ hc)) hnext _)

-- ---------------------------------------------------------------------------
-- Histories
-- ---------------------------------------------------------------------------

/-- What the constructor sets up and no call changes. -/
structure Built (v : Vocoder K) : Prop where
  m_eq : v.m = nOfMGCs - 1
  fprd_eq : v.fprd = defaultFrameRate
  iprd_eq : v.iprd = defaultInterpFrameRate
  stage_eq : v.stage = defaultGamma
  pd_eq : v.pd = defaultPadeOrder
  ngain_eq : v.ngain = false
  length_c : v.c.length = v.m + 1
  length_cc : v.cc.length = v.m + 1
  length_inc : v.inc.length = v.m + 1
  length_d : v.d.length = 3 * (v.pd.toNat + 1) + v.pd.toNat * (v.m + 2)

omit [LinearOrder K] in
/-- The constructor sets the members and the lengths of the arrays. -/
theorem built_new (gamma actionValue : K) : (new gamma actionValue).Built where
  m_eq := rfl
  fprd_eq := rfl
  iprd_eq := rfl
  stage_eq := rfl
  pd_eq := rfl
  ngain_eq := rfl
  length_c := List.length_replicate
  length_cc := List.length_replicate
  length_inc := List.length_replicate
  length_d := List.length_replicate

omit [LinearOrder K] in
/-- The warped coefficients are as many. -/
theorem length_mc2b (mc : List K) (a : K) : (mc2b mc a).length = mc.length := by
  rw [mc2b]
  induction mc with
  | nil => rfl
  | cons x mc ih => rw [List.foldr_cons, List.length_cons, List.length_cons, ih]

theorem Built.prepare (h : v.Built) (frame : Frame K) (voiced ignoreVoicing : Bool) :
    (v.prepare libm frame voiced ignoreVoicing).Built := by
  have hb : (coefficients libm v frame).length = v.m + 1 := by
    rw [coefficients_of_stage libm (h.stage_eq.trans rfl), length_mc2b, List.length_map,
      List.length_range]
  have hc : (if v.flagFirstPush = true then coefficients libm v frame else v.cc).length
      = v.m + 1 := by
    split
    · exact hb
    · exact h.length_cc
  refine ⟨h.m_eq, h.fprd_eq, h.iprd_eq, h.stage_eq, h.pd_eq, h.ngain_eq, hc, hb, ?_, h.length_d⟩
  show (List.zipWith _ _ _).length = v.m + 1
  rw [List.length_zipWith, hb, hc, min_self]

/-- So does a sample through the filter. -/
theorem Built.filter (h : v.Built) (x : K) : (v.filter libm x).2.Built := by
  refine ⟨h.m_eq, h.fprd_eq, h.iprd_eq, h.stage_eq, h.pd_eq, h.ngain_eq, ?_, h.length_cc,
    h.length_inc, ?_⟩
  · show (if _ then List.zipWith (· + ·) v.c v.inc else v.c).length = v.m + 1
    split
    · rw [List.length_zipWith, h.length_c, h.length_inc, min_self]
    · exact h.length_c
  · show ((List.range v.d.length).map _).length = _
    rw [List.length_map, List.length_range]
    exact h.length_d

omit [LinearOrder K] in
theorem Built.reset (h : v.Built) : v.reset.Built where
  m_eq := h.m_eq
  fprd_eq := h.fprd_eq
  iprd_eq := h.iprd_eq
  stage_eq := rfl
  pd_eq := rfl
  ngain_eq := h.ngain_eq
  length_c := (List.length_map _).trans h.length_c
  length_cc := (List.length_map _).trans h.length_cc
  length_inc := (List.length_map _).trans h.length_inc
  length_d := ((List.length_map _).trans h.length_d).trans (by rw [h.pd_eq]; rfl)

omit [Field K] [LinearOrder K] in
/-- The members that controls and excitations set are none of these. -/
theorem Built.set (h : v.Built) (alpha f0 t0 volume actionValue : K) (action count : Int)
    (voiced : Bool) :
    Built { v with alpha := alpha, f0 := f0, t0 := t0, volume := volume, actionValue := actionValue,
                   action := action, count := count, voiced := voiced } :=
  ⟨h.m_eq, h.fprd_eq, h.iprd_eq, h.stage_eq, h.pd_eq, h.ngain_eq, h.length_c, h.length_cc,
    h.length_inc, h.length_d⟩

theorem Built.excite [FloorRing K] (h : v.Built) (random : Nat → K) :
    (v.excite libm random).2.1.Built := by
  obtain ⟨count, hcount⟩ := v.excite_eq libm random
  rw [hcount]
  exact h.set ..

theorem Built.call [FloorRing K] (h : v.Built) (random : Nat → K) (c : Call K) :
    (v.call libm random c).2.1.Built := by
  cases c with
  | push frame ignoreVoicing => exact h.prepare libm frame frame.voiced ignoreVoicing
  | pop => exact (h.excite libm random).filter libm _
  | setPitch pitch action forceVoiced => exact h.set ..
  | setVoiced forceVoiced => exact h.set ..
  | setAlpha alpha => exact h.set ..
  | setVolume volume => exact h.set ..
  | reset => exact h.reset

/-- Whatever is called on a new vocoder keeps its shape. -/
theorem built_run [FloorRing K] (gamma actionValue : K) (random : Nat → K)
    (history : List (Call K)) : (run libm (new gamma actionValue) random history).Built :=
  foldl_invariant (I := fun s : Vocoder K × (Nat → K) => s.1.Built)
    (fun s c h => h.call libm s.2 c) history _ (built_new gamma actionValue)

-- ---------------------------------------------------------------------------
-- What a reset restores
-- ---------------------------------------------------------------------------

omit [LinearOrder K] in
/-- An unvoiced vocoder after a reset is a new one but for the members that `reset` leaves. -/
theorem Built.new_eq (h : v.Built) (hvoiced : v.voiced = false) (gamma actionValue : K) :
    new gamma actionValue
      = { v.reset with gamma := gamma, actionValue := actionValue, count := 0,
                       nOfPopSinceLastPush := 0 } := by
  have hd := h.length_d
  rw [h.pd_eq, h.m_eq] at hd
  simp only [Vocoder.new, Vocoder.reset, List.map_const', h.length_c, h.length_cc, h.length_inc,
    hd, h.m_eq, h.fprd_eq, h.iprd_eq, h.ngain_eq, hvoiced, defaultVolume, Int.cast_one]

omit [LinearOrder K] in
/-- A vocoder that is unvoiced and has no pulse to come. -/
theorem Built.alike_new (h : v.Built) (hvoiced : v.voiced = false) (hcount : v.count ≤ 0)
    (gamma actionValue : K) : v.reset.Alike (new gamma actionValue) := by
  rw [h.new_eq hvoiced]
  refine Alike.intro gamma actionValue 0 0 rfl rfl (.inr ⟨hcount, Int.le_refl 0⟩) (.inr ?_)
  show v.inc.map (fun _ => 0) = List.replicate (v.c.map fun _ => 0).length 0
  rw [List.map_const', List.length_map, h.length_inc, h.length_c]

/-- **The property of one history**: after a reset, every further sequence of pushes and pops
returns the samples of a new vocoder, whatever a new one holds in the members that the
constructor does not set, and whatever the random numbers are. -/
def Restored [FloorRing K] (v : Vocoder K) : Prop :=
  ∀ (gamma actionValue : K) (random : Nat → K), (∀ k, -1 ≤ random k ∧ random k < 1) →
    ∀ later : List (Call K), (∀ c ∈ later, c.Plays) →
      samples libm v.reset random later = samples libm (new gamma actionValue) random later

/-- A filter without coefficients, of a vocoder as it is built. -/
structure Flat (v : Vocoder K) : Prop where
  c_eq : ∀ i, v.c.getD i 0 = 0
  stage_eq : v.stage = 0
  ngain_eq : v.ngain = false
  volume_eq : v.volume = 1

omit [LinearOrder K] in
theorem getD_replicate_zero (n i : Nat) : (List.replicate n (0 : K)).getD i 0 = 0 := by
  rw [List.getD_eq_getElem?_getD, List.getElem?_getD_replicate_default_eq]

omit [LinearOrder K] in
/-- A spectrum of zeros has coefficients of zero. -/
theorem mc2b_of_zero {mc : List K} (hmc : ∀ x ∈ mc, x = 0) (a : K) :
    mc2b mc a = List.replicate mc.length 0 := by
  rw [mc2b]
  induction mc with
  | nil => rfl
  | cons x mc ih =>
    rw [List.foldr_cons, ih fun y hy => hmc y (List.mem_cons_of_mem _ hy), hmc x List.mem_cons_self]
    cases mc <;> simp [List.replicate_succ]

omit [LinearOrder K] in
theorem flat_new (gamma actionValue : K) : (new gamma actionValue).Flat :=
  ⟨getD_replicate_zero _, rfl, rfl, rfl⟩

omit [LinearOrder K] in
theorem Built.flat_reset (h : v.Built) : v.reset.Flat := by
  refine ⟨fun i => ?_, rfl, h.ngain_eq, Int.cast_one⟩
  show (v.c.map fun _ => 0).getD i 0 = 0
  rw [List.map_const', getD_replicate_zero]

/-- A voiced frame without a spectrum. -/
def quiet : Frame K where
  streams := fun stream _ => if stream = lf0StreamIndex then (defaultPitch : K) else 0
  voiced := true

/-- A quiet first frame keeps the filter flat. -/
theorem Flat.prepare_quiet (h : v.Flat) (hfirst : v.flagFirstPush = true) (voiced : Bool) :
    (v.prepare libm quiet voiced false).Flat := by
  refine ⟨fun i => ?_, h.stage_eq, h.ngain_eq, h.volume_eq⟩
  show (if v.flagFirstPush = true then coefficients libm v quiet else v.cc).getD i 0 = 0
  -- the first push takes the coefficients over without interpolation
  have hzero : ∀ x ∈ (List.range (v.m + 1)).map (quiet.streams mgcStreamIndex), x = (0 : K) := by
    intro x hx
    obtain ⟨k, -, rfl⟩ := List.mem_map.mp hx
    rfl
  rw [if_pos hfirst, coefficients_of_stage libm h.stage_eq, mc2b_of_zero hzero,
    getD_replicate_zero]

section Exact

variable [FloorRing K] [IsStrictOrderedRing K]

omit [IsStrictOrderedRing K] in
/-- A flat filter only scales by the gain. -/
theorem Flat.filter (h : v.Flat) (x : K) : (v.filter libm x).1 = x * libm.exp 0 := by
  have hpos : (1 : K) ≥ 0 := zero_le_one
  simp only [Vocoder.filter, h.ngain_eq, h.stage_eq, h.volume_eq, h.c_eq, ne_eq, not_true,
    Bool.false_eq_true, if_false, if_pos hpos, one_mul]
  exact mlsadf_of_zero _ _ _ (fun _ => rfl) _ _

omit [IsStrictOrderedRing K] in
/-- The sample that a flat vocoder pops. -/
theorem Flat.samples_pop (h : v.Flat) (random : Nat → K) :
    samples libm v random [.pop] = [(v.excite libm random).1 * libm.exp 0] := by
  have hflat : (v.excite libm random).2.1.Flat := by
    rw [Vocoder.excite]
    split
    · split
      · exact ⟨h.c_eq, h.stage_eq, h.ngain_eq, h.volume_eq⟩
      · exact ⟨h.c_eq, h.stage_eq, h.ngain_eq, h.volume_eq⟩
    · exact ⟨h.c_eq, h.stage_eq, h.ngain_eq, h.volume_eq⟩
  rw [← hflat.filter libm]
  rfl

variable {libm}

/-- A reset vocoder that is voiced pops a pulse or nothing, where a new one pops noise. -/
theorem Built.not_restored_of_voiced (hlibm : libm.Lawful) (h : v.Built)
    (hvoiced : v.voiced = true) : ¬ v.Restored libm := by
  intro hrestored
  -- one pop, with noise that is -1
  have hsame := hrestored 0 0 (fun _ => -1) (fun _ => ⟨le_refl _, by norm_num⟩) [.pop]
    fun c hc => by rw [List.mem_singleton.mp hc]; trivial
  rw [h.flat_reset.samples_pop, (flat_new 0 0).samples_pop] at hsame
  obtain ⟨hsame, -⟩ := List.cons.inj hsame
  have hexp := hlibm.exp_pos 0
  -- the voiced one gives a pulse or nothing, the new one the noise
  have hpulse : 0 ≤ (v.reset.excite libm fun _ => -1).1 := by
    have hv : v.reset.voiced = true := hvoiced
    rw [Vocoder.excite, if_pos hv]
    split
    · exact (hlibm.sqrt_pos _ (div_pos (by norm_num [defaultSamplingRate]) defaultPitch_pos)).le
    · exact le_refl _
  have hnoise : ((new 0 0 : Vocoder K).excite libm fun _ => -1).1 = -1 := rfl
  rw [hnoise] at hsame
  have hle : 0 ≤ (v.reset.excite libm fun _ => -1).1 * libm.exp 0 := mul_nonneg hpulse hexp.le
  linarith

/-- A reset vocoder with a pulse to come waits for it, where a new one starts with one. -/
theorem Built.not_restored_of_count (hlibm : libm.Lawful) (h : v.Built) (hcount : 0 < v.count) :
    ¬ v.Restored libm := by
  intro hrestored
  -- a quiet voiced frame, and then one pop
  have hsame := hrestored 0 0 (fun _ => -1) (fun _ => ⟨le_refl _, by norm_num⟩)
    [.push quiet false, .pop] fun c hc => by
      rcases List.mem_cons.mp hc with rfl | hc
      · rfl
      · rw [List.mem_singleton.mp hc]
        trivial
  have hpush : ∀ u : Vocoder K, samples libm u (fun _ => -1) [.push quiet false, .pop]
      = samples libm (u.prepare libm quiet true false) (fun _ => -1) [.pop] := fun _ => rfl
  rw [hpush, hpush, (h.flat_reset.prepare_quiet libm rfl true).samples_pop,
    ((flat_new 0 0).prepare_quiet libm rfl true).samples_pop] at hsame
  obtain ⟨hsame, -⟩ := List.cons.inj hsame
  -- the old counter has not run down
  have hwaits : ((v.reset.prepare libm quiet true false).excite libm fun _ => -1).1 = 0 := by
    have hnot : ¬ (v.reset.prepare libm quiet true false).count ≤ 0 := not_le.mpr hcount
    have hv : (v.reset.prepare libm quiet true false).voiced = true := rfl
    rw [Vocoder.excite, if_pos hv, if_neg hnot]
  -- the new one starts with a pulse
  have hstarts : 0 < (((new 0 0 : Vocoder K).prepare libm quiet true false).excite libm
      fun _ => -1).1 := by
    have hzero : ((new 0 0 : Vocoder K).prepare libm quiet true false).count ≤ 0 := le_refl 0
    have hv : ((new 0 0 : Vocoder K).prepare libm quiet true false).voiced = true := rfl
    rw [Vocoder.excite, if_pos hv, if_pos hzero]
    have hf0 : audiblePitch (defaultPitch : K) = defaultPitch :=
      audiblePitch_of_nonneg defaultPitch_pos.le
    refine hlibm.sqrt_pos _ (div_pos (by norm_num [defaultSamplingRate]) ?_)
    exact defaultPitch_pos.trans_eq hf0.symm
  rw [hwaits, zero_mul] at hsame
  exact absurd hsame (mul_pos hstarts (hlibm.exp_pos 0)).ne

/-- **When a reset restores the vocoder**, after any history of calls to a new one: exactly
when the last frame was unvoiced and no pulse was to come. -/
theorem restored_iff (hlibm : libm.Lawful) (gamma actionValue : K) (random : Nat → K)
    (history : List (Call K)) :
    (run libm (new gamma actionValue) random history).Restored libm ↔
      (run libm (new gamma actionValue) random history).voiced = false ∧
        (run libm (new gamma actionValue) random history).count ≤ 0 := by
  have h := built_run libm gamma actionValue random history
  constructor
  · intro hrestored
    constructor
    · by_contra hvoiced
      exact h.not_restored_of_voiced hlibm (Bool.eq_true_of_not_eq_false hvoiced) hrestored
    · by_contra hcount
      exact h.not_restored_of_count hlibm (not_le.mp hcount) hrestored
  · rintro ⟨hvoiced, hcount⟩ gamma' actionValue' random' - later hlater
    exact ((h.alike_new hvoiced hcount gamma' actionValue').samples_eq libm hlater random').symm

end Exact

/-- An unvoiced frame with a gain. -/
def hiss {K : Type*} [Field K] : Frame K where
  streams := fun stream i => if stream = mgcStreamIndex ∧ i = 0 then 1 else 0
  voiced := false

/-- A voiced frame with its pulse, then an unvoiced one under a control. -/
theorem restored_of_unvoiced :
    (run Libm.real (new 0 0) (fun _ => 0)
      [.push quiet false, .pop, .setPitch 220 shift false, .push hiss false, .pop]).Restored
        Libm.real :=
  (restored_iff Libm.lawful_real 0 0 (fun _ => 0) _).mpr ⟨rfl, le_refl 0⟩

/-- After a voiced frame the reset vocoder stays voiced: it pops a pulse, a new one noise. -/
theorem not_restored_of_quiet :
    ¬ (run Libm.real (new 0 0) (fun _ => 0) [.push quiet false]).Restored Libm.real :=
  (built_run Libm.real 0 0 (fun _ => 0) _).not_restored_of_voiced Libm.lawful_real rfl

end Vocoder

end Vox.Mage
