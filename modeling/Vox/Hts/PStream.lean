import Vox.Mage.ModelQueue

/-!
# hts_engine — parameter streams

`HTS_PStreamSet_create` of the vendored hts_engine: from all states of an utterance,
the problem that the parameter solver gets for each stream. It is the batch
synthesiser that MAGE was made from. Translated up to the call of the solver, with
its loops over states and frames.
-/

namespace Vox.Hts

open Mage

/-- `HTS_SStreamSet`: the states of an utterance. -/
structure SStreamSet where
  total_state : Nat
  total_frame : Int
  duration : Nat → Int
  is_msd : Nat → Bool
  vector_length : Nat → Nat
  window : Nat → Window ℚ
  msd : Nat → Nat → ℚ
  mean : Nat → Nat → Nat → ℚ
  vari : Nat → Nat → Nat → ℚ
  use_gv : Nat → Bool
  gv_mean : Nat → Nat → ℚ
  gv_vari : Nat → Nat → ℚ
  gv_switch : Nat → Nat → Bool

/-- `HTS_PStream`, less the arrays that only the solver uses. -/
structure PStream where
  length : Int
  msd_flag : Nat → Bool
  vector_length : Nat
  width : Nat
  window : Window ℚ
  static_length : Nat
  gv_mean : Nat → ℚ
  gv_vari : Nat → ℚ
  gv_switch : Nat → Bool
  gv_length : Nat
  mean : Nat → Nat → ℚ
  ivar : Nat → Nat → ℚ

variable {σ : Type*}

/-- The loops over all states and the frames of a state. -/
def forFrames (sss : SStreamSet) (body : Nat → σ → σ) (s : σ) : σ :=
  (List.range sss.total_state).foldl
    (fun s state => (List.range (sss.duration state).toNat).foldl (fun s _ => body state s) s) s

/-- `pst->length` -/
def length (sss : SStreamSet) (msd_threshold : Nat → ℚ) (i : Nat) : Int :=
  if sss.is_msd i then
    (List.range sss.total_state).foldl
      (fun length state =>
        if sss.msd i state > msd_threshold i then length + sss.duration state else length) 0
  else sss.total_frame

/-- `pst->msd_flag`, in a cleared array. -/
def msdFlag (sss : SStreamSet) (msd_threshold : Nat → ℚ) (i : Nat) : Nat → Bool :=
  (forFrames sss
    (fun state (s : Nat × (Nat → Bool)) =>
      (s.1 + 1, Function.update s.2 s.1 (decide (sss.msd i state > msd_threshold i))))
    (0, fun _ => false)).2

/-- `pst->gv_switch`, in a cleared array. -/
def gvSwitch (sss : SStreamSet) (msd_flag : Nat → Bool) (i : Nat) : Nat → Bool :=
  if sss.is_msd i then
    (forFrames sss
      (fun state (s : Nat × Nat × (Nat → Bool)) =>
        if msd_flag s.1 then
          (s.1 + 1, s.2.1 + 1, Function.update s.2.2 s.2.1 (sss.gv_switch i state))
        else (s.1 + 1, s.2.1, s.2.2))
      (0, 0, fun _ => false)).2.2
  else
    (forFrames sss
      (fun state (s : Nat × (Nat → Bool)) =>
        (s.1 + 1, Function.update s.2 s.1 (sss.gv_switch i state)))
      (0, fun _ => false)).2

/-- The loops over windows and static features: `value k m` at
`m = static_length * k + l`. -/
def storeCells (win_size static_length : Nat) (value : Nat → Nat → ℚ) (cells : Nat → ℚ) :
    Nat → ℚ :=
  (List.range win_size).foldl
    (fun cells k =>
      (List.range static_length).foldl
        (fun cells l =>
          Function.update cells (static_length * k + l) (value k (static_length * k + l))) cells)
    cells

/-- `sm.mean` and `sm.ivar` while they are filled. -/
structure Pdfs where
  frame : Nat
  msd_frame : Nat
  mean : Nat → Nat → ℚ
  ivar : Nat → Nat → ℚ

/-- Row `row` for a frame of state `state`. -/
def storePdf (sss : SStreamSet) (i state row : Nat) (not_bound : Nat → Bool) (s : Pdfs) : Pdfs :=
  let win_size := (sss.window i).size
  let static_length := sss.vector_length i / win_size
  { s with
    mean := Function.update s.mean row
      (storeCells win_size static_length (fun _ m => sss.mean i state m) (s.mean row))
    ivar := Function.update s.ivar row
      (storeCells win_size static_length
        (fun k m => if not_bound k || k == 0 then ModelQueue.HTS_finv (sss.vari i state m) else 0)
        (s.ivar row)) }

/-- The copy of the pdfs, in cleared arrays. -/
def copyPdfs (sss : SStreamSet) (msd_flag : Nat → Bool) (i : Nat) : Pdfs :=
  let offsets (k : Nat) : List Int :=
    ModelQueue.offsets ((sss.window i).l_width k) ((sss.window i).r_width k)
  if sss.is_msd i then
    forFrames sss
      (fun state s =>
        if msd_flag s.frame then
          let not_bound (k : Nat) : Bool := (offsets k).all fun l =>
            !(s.frame + l < 0 || sss.total_frame ≤ s.frame + l ||
              !msd_flag (s.frame + l).toNat)
          { storePdf sss i state s.msd_frame not_bound s with
            msd_frame := s.msd_frame + 1
            frame := s.frame + 1 }
        else { s with frame := s.frame + 1 })
      ⟨0, 0, fun _ _ => 0, fun _ _ => 0⟩
  else
    forFrames sss
      (fun state s =>
        let not_bound (k : Nat) : Bool := (offsets k).all fun l =>
          !(s.frame + l < 0 || sss.total_frame ≤ s.frame + l)
        { storePdf sss i state s.frame not_bound s with frame := s.frame + 1 })
      ⟨0, 0, fun _ _ => 0, fun _ _ => 0⟩

/-- `HTS_PStreamSet_create`: the problem of stream `i`. -/
def HTS_PStreamSet_create (sss : SStreamSet) (msd_threshold gv_weight : Nat → ℚ) (i : Nat) :
    PStream :=
  let msd_flag := if sss.is_msd i then msdFlag sss msd_threshold i else fun _ => false
  let length := length sss msd_threshold i
  let gv_switch := if sss.use_gv i then gvSwitch sss msd_flag i else fun _ => false
  let pdfs := copyPdfs sss msd_flag i
  { length := length
    msd_flag := msd_flag
    vector_length := sss.vector_length i
    width := (sss.window i).max_width * 2 + 1
    window := sss.window i
    static_length := sss.vector_length i / (sss.window i).size
    gv_mean := if sss.use_gv i then fun j => sss.gv_mean i j * gv_weight i else fun _ => 0
    gv_vari := if sss.use_gv i then sss.gv_vari i else fun _ => 0
    gv_switch := gv_switch
    gv_length := (List.range length.toNat).countP gv_switch
    mean := pdfs.mean
    ivar := pdfs.ivar }

end Vox.Hts
