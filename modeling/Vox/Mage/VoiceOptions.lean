import Vox.Mage.ArgumentBounds

/-!
# MAGE — what the options of a voice do

A list of complete options, the form that `Engine::load` documents in its usage: file
options, numbers and flags in any order, with `-i` and its rates somewhere between them,
and one argument that is not looked at.

* `readOptions_items` — the scan takes every option for what it is.
* `filesAt_calls` — the place that each table of files is loaded into.
* `meant_iff` — when the list does what it says. The search for the number of speakers
  does not see `-i` in the first place, and the trees of the GV of the low-pass filter go
  with their models to the stream of the spectrum.
-/

namespace Vox.Mage

open Lib

-- ---------------------------------------------------------------------------
-- Places
-- ---------------------------------------------------------------------------

/-- What a file is loaded as, and into which stream. -/
inductive FilePlace
  | durationModel | durationTree
  | model (stream : Nat) | tree (stream : Nat) | window (stream : Nat)
  | gvModel (stream : Nat) | gvTree (stream : Nat)
  deriving DecidableEq, Repr

/-- The place that an option names: `m` is stream 0, `f` and `p` stream 1, `l` stream 2. -/
def Table.place : Table → FilePlace
  | .ts_dur => .durationTree
  | .ts_mgc => .tree 0
  | .ts_lf0 => .tree 1
  | .ts_lpf => .tree 2
  | .ms_dur => .durationModel
  | .ms_mgc => .model 0
  | .ms_lf0 => .model 1
  | .ms_lpf => .model 2
  | .ws_mgc => .window 0
  | .ws_lf0 => .window 1
  | .ws_lpf => .window 2
  | .ts_gvm => .gvTree 0
  | .ts_gvl => .gvTree 1
  | .ts_gvf => .gvTree 2
  | .ms_gvm => .gvModel 0
  | .ms_gvl => .gvModel 1
  | .ms_gvf => .gvModel 2

/-- The files that a call loads, with their places. -/
def Call.files : Call → List (FilePlace × List Str)
  | .load_duration_from_fn ms ts => [(.durationModel, ms), (.durationTree, ts)]
  | .load_parameter_from_fn ms ts ws stream _ =>
    [(.model stream, ms), (.tree stream, ts), (.window stream, ws)]
  | .load_gv_from_fn ms ts stream => [(.gvModel stream, ms), (.gvTree stream, ts.getD [])]
  | _ => []

/-- The files that some calls load into a place. -/
def filesAt (calls : List Call) (p : FilePlace) : List Str :=
  (calls.flatMap Call.files).flatMap fun f => if f.1 = p then f.2 else []

theorem filesAt_append (cs ds : List Call) (p : FilePlace) :
    filesAt (cs ++ ds) p = filesAt cs p ++ filesAt ds p := by
  rw [filesAt, List.flatMap_append, List.flatMap_append]
  rfl

/-- The calls of `Engine::load` that load files. -/
def Options.loads (o : Options) (num_interp : Nat) : List Call :=
  [.load_duration_from_fn (o.fn .ms_dur) (o.fn .ts_dur),
    .load_parameter_from_fn (o.fn .ms_mgc) (o.fn .ts_mgc) (o.fn .ws_mgc) 0 false,
    .load_parameter_from_fn (o.fn .ms_lf0) (o.fn .ts_lf0) (o.fn .ws_lf0) 1 true]
  ++ (if o.hasLpf then
    [.load_parameter_from_fn (o.fn .ms_lpf) (o.fn .ts_lpf) (o.fn .ws_lpf) 2 false] else [])
  ++ o.loadGV num_interp .ms_gvm .ts_gvm 0 0
  ++ o.loadGV num_interp .ms_gvl .ts_gvl 1 1
  ++ (if o.hasLpf then o.loadGV num_interp .ms_gvf .ts_gvf 0 2 else [])

section Settings

variable {cs : List Call}

theorem files_ite {c : Prop} [Decidable c] (h : cs.flatMap Call.files = []) :
    (if c then cs else []).flatMap Call.files = [] := by
  split
  · exact h
  · rfl

/-- Several calls without files for each rate. -/
theorem files_rates {f : ℚ × Nat → List Call} (h : ∀ x, (f x).flatMap Call.files = [])
    (rates : List (ℚ × Nat)) : (rates.flatMap f).flatMap Call.files = [] := by
  rw [List.flatMap_assoc]
  exact List.flatMap_eq_nil_iff.mpr fun x _ => h x

/-- One call without files for each rate. -/
theorem files_rate {f : ℚ × Nat → Call} (h : ∀ x, (f x).files = []) (rates : List (ℚ × Nat)) :
    (rates.map f).flatMap Call.files = [] := by
  rw [List.flatMap_map]
  exact List.flatMap_eq_nil_iff.mpr fun x _ => h x

end Settings

/-- The other calls set numbers. -/
theorem files_calls (o : Options) (num_interp : Nat) :
    (o.calls num_interp).flatMap Call.files = (o.loads num_interp).flatMap Call.files := by
  -- the switch is not a file of the tables
  have hswitch : (o.fn_gv_switch.map Call.load_gv_switch_from_fn).toList.flatMap Call.files
      = [] := by
    cases o.fn_gv_switch <;> rfl
  -- nor do the weights name files
  have hrates := files_rates (f := fun x : ℚ × Nat =>
    [.set_duration_interpolation_weight x.2 x.1, .set_parameter_interpolation_weight 0 x.2 x.1,
      .set_parameter_interpolation_weight 1 x.2 x.1]
    ++ (if o.hasLpf then [.set_parameter_interpolation_weight 2 x.2 x.1] else []))
    (fun x => by cases o.hasLpf <;> rfl) o.rate_interp.zipIdx
  have hgv : ∀ stream, (o.rate_interp.zipIdx.map fun x : ℚ × Nat =>
      Call.set_gv_interpolation_weight stream x.2 x.1).flatMap Call.files = [] :=
    fun stream => files_rate (fun _ => rfl) _
  have hweight : [Call.set_gv_weight 2 o.gv_weight_lpf].flatMap Call.files = [] := rfl
  simp only [Options.calls, Options.loads, List.flatMap_append, List.flatMap_cons, List.flatMap_nil,
    Call.files, List.nil_append, List.append_nil, hswitch, hrates, files_ite (hgv _),
    files_ite (files_ite (hgv _)), files_ite hweight]

/-- The files come with the calls that load. -/
theorem filesAt_calls (o : Options) (num_interp : Nat) (p : FilePlace) :
    filesAt (o.calls num_interp) p = filesAt (o.loads num_interp) p := by
  rw [filesAt, files_calls, filesAt]

section Files

variable (ms ts ws : List Str) (stream : Nat) (p : FilePlace)

theorem filesAt_duration : filesAt [.load_duration_from_fn ms ts] p
    = match p with
      | .durationModel => ms
      | .durationTree => ts
      | _ => [] := by
  cases p <;> simp [filesAt, Call.files]

theorem filesAt_parameter (msd_flag : Bool) :
    filesAt [.load_parameter_from_fn ms ts ws stream msd_flag] p
      = match p with
        | .model k => if stream = k then ms else []
        | .tree k => if stream = k then ts else []
        | .window k => if stream = k then ws else []
        | _ => [] := by
  cases p <;> simp [filesAt, Call.files]

/-- Where the GV files of a stream go; trees need not be given. -/
theorem filesAt_gv (trees : Option (List Str)) : filesAt [.load_gv_from_fn ms trees stream] p
    = match p with
      | .gvModel k => if stream = k then ms else []
      | .gvTree k => if stream = k then trees.getD [] else []
      | _ => [] := by
  cases p <;> simp [filesAt, Call.files]

/-- The files of the GV of a stream: none without all models, and the trees only when they
are as many. -/
theorem filesAt_loadGV (o : Options) (num_interp : Nat) (m t : Table) (a b : Nat) :
    filesAt (o.loadGV num_interp m t a b) p
      = if num_interp = (o.fn m).length then
          if (o.fn m).length = (o.fn t).length then
            filesAt [.load_gv_from_fn (o.fn m) (some (o.fn t)) a] p
          else filesAt [.load_gv_from_fn (o.fn m) none b] p
        else [] := by
  unfold Options.loadGV
  split
  · split
    · rfl
    · rfl
  · rfl

/-- Files of calls that are made on a condition. -/
theorem filesAt_when (c : Bool) (cs : List Call) :
    filesAt (if c then cs else []) p = if c then filesAt cs p else [] := by
  cases c <;> rfl

end Files

/-- The files of the GV of a stream are as many as they have to be: a model for each
speaker, with a tree for each or without trees; or nothing. -/
def GVComplete (num_interp : Nat) (ms ts : List Str) : Prop :=
  (ms = [] ∧ ts = []) ∨ (ms.length = num_interp ∧ (ts = [] ∨ ts.length = num_interp))

/-- **A complete voice.** -/
structure Complete (fn : Table → List Str) (num_interp : Nat) : Prop where
  counts : ∀ t ∈ [Table.ts_dur, .ts_mgc, .ts_lf0, .ms_dur, .ms_mgc, .ms_lf0],
    (fn t).length = num_interp
  lpf : (fn .ms_lpf = [] ∧ fn .ts_lpf = [] ∧ fn .ws_lpf = []) ∨
    ((fn .ms_lpf).length = num_interp ∧ (fn .ts_lpf).length = num_interp)
  gvm : GVComplete num_interp (fn .ms_gvm) (fn .ts_gvm)
  gvl : GVComplete num_interp (fn .ms_gvl) (fn .ts_gvl)
  /-- The GV of the low-pass filter has no trees. -/
  gvf : fn .ts_gvf = [] ∧
    (fn .ms_gvf = [] ∨ ((fn .ms_gvf).length = num_interp ∧ fn .ms_lpf ≠ []))

/-- The GV of the low-pass filter has a tree for each of its models, and both are loaded
where the spectrum has its own. -/
abbrev Options.GVAstray (o : Options) (num_interp : Nat) : Prop :=
  o.hasLpf = true ∧ num_interp = (o.fn .ms_gvf).length ∧
    (o.fn .ms_gvf).length = (o.fn .ts_gvf).length

/-- **Where the files of a table are**, after the calls of `Engine::load`. -/
theorem filesAt_place (o : Options) (num_interp : Nat) (t : Table) :
    filesAt (o.calls num_interp) t.place
      = match t with
        | .ms_lpf | .ts_lpf | .ws_lpf => if o.hasLpf then o.fn t else []
        | .ms_gvm => (if num_interp = (o.fn .ms_gvm).length then o.fn .ms_gvm else [])
            ++ (if o.GVAstray num_interp then o.fn .ms_gvf else [])
        | .ts_gvm => (if num_interp = (o.fn .ms_gvm).length ∧
              (o.fn .ms_gvm).length = (o.fn .ts_gvm).length then o.fn .ts_gvm else [])
            ++ (if o.GVAstray num_interp then o.fn .ts_gvf else [])
        | .ms_gvl => if num_interp = (o.fn .ms_gvl).length then o.fn .ms_gvl else []
        | .ts_gvl => if num_interp = (o.fn .ms_gvl).length ∧
              (o.fn .ms_gvl).length = (o.fn .ts_gvl).length then o.fn .ts_gvl else []
        | .ms_gvf => if o.hasLpf = true ∧ num_interp = (o.fn .ms_gvf).length ∧
              (o.fn .ms_gvf).length ≠ (o.fn .ts_gvf).length then o.fn .ms_gvf else []
        | .ts_gvf => []
        | t => o.fn t := by
  have hcons : ∀ (c c' : Call) (cs : List Call) (p : FilePlace),
      filesAt (c :: c' :: cs) p = filesAt [c] p ++ filesAt (c' :: cs) p :=
    fun c c' cs p => filesAt_append [c] (c' :: cs) p
  rw [filesAt_calls, Options.loads]
  simp only [filesAt_append, hcons, filesAt_when, filesAt_loadGV, filesAt_duration,
    filesAt_parameter, filesAt_gv]
  cases t <;> simp [Table.place, Options.GVAstray, ite_and]

section Complete

variable (o : Options) {num_interp : Nat}

/-- There is no low-pass filter when neither a model nor a tree is given for it. -/
theorem hasLpf_eq_false : o.hasLpf = false ↔ o.fn .ms_lpf = [] ∧ o.fn .ts_lpf = [] := by
  rw [Options.hasLpf, Bool.or_eq_false_iff, decide_eq_false_iff_not, decide_eq_false_iff_not,
    List.length_pos_iff, List.length_pos_iff, not_ne_iff, not_ne_iff]

/-- A table of files that is loaded whole or not at all. -/
theorem ite_eq_self_iff {α : Type} {c : Prop} [Decidable c] {l : List α} :
    (if c then l else []) = l ↔ c ∨ l = [] := by
  split
  · next h => exact ⟨fun _ => .inl h, fun _ => rfl⟩
  · next h => exact ⟨fun heq => .inr heq.symm, fun hor => (hor.resolve_left h).symm⟩

variable {o}

/-- The test before the GV files: all of them or none, and trees only with models. -/
theorem gvComplete_iff (hpos : 0 < num_interp) {ms ts : List Str} :
    ((num_interp = ms.length ∨ ms = []) ∧
      ((num_interp = ms.length ∧ ms.length = ts.length) ∨ ts = [])) ↔
        GVComplete num_interp ms ts := by
  constructor
  · rintro ⟨hms, hts⟩
    rcases hms with hms | rfl
    · exact .inr ⟨hms.symm, hts.symm.imp_right fun h => (h.1.trans h.2).symm⟩
    · exact .inl ⟨rfl, hts.resolve_left fun h => hpos.ne' h.1⟩
  · rintro (⟨rfl, rfl⟩ | ⟨hms, hts⟩)
    · exact ⟨.inr rfl, .inr rfl⟩
    · exact ⟨.inl hms.symm, hts.symm.imp_left fun h => ⟨hms.symm, hms.trans h.symm⟩⟩

/-- What `countsAgree` checks. -/
theorem countsAgree_iff :
    o.countsAgree num_interp = true ↔
      (∀ t ∈ [Table.ts_dur, .ts_mgc, .ts_lf0, .ms_dur, .ms_mgc, .ms_lf0],
        (o.fn t).length = num_interp) ∧
      (o.hasLpf = false ∨
        ((o.fn .ms_lpf).length = num_interp ∧ (o.fn .ts_lpf).length = num_interp)) := by
  rw [Options.countsAgree]
  simp

/-- The low-pass filter has its files in place when they are complete. -/
theorem lpf_iff (hpos : 0 < num_interp) :
    ((o.hasLpf = false ∨
        ((o.fn .ms_lpf).length = num_interp ∧ (o.fn .ts_lpf).length = num_interp)) ∧
      (o.hasLpf = true ∨ o.fn .ws_lpf = [])) ↔
    (o.fn .ms_lpf = [] ∧ o.fn .ts_lpf = [] ∧ o.fn .ws_lpf = []) ∨
      ((o.fn .ms_lpf).length = num_interp ∧ (o.fn .ts_lpf).length = num_interp) := by
  cases hlpf : o.hasLpf with
  | false =>
    have hnone := (hasLpf_eq_false o).mp hlpf
    have hzero : num_interp ≠ 0 := hpos.ne'
    simp [hnone, hzero.symm]
  | true =>
    have hsome : ¬ (o.fn .ms_lpf = [] ∧ o.fn .ts_lpf = []) := fun h =>
      Bool.noConfusion (hlpf.symm.trans ((hasLpf_eq_false o).mpr h))
    simp [← and_assoc, hsome]

/-- **A voice is loaded in place exactly when it is complete.** -/
theorem inPlace_iff (hpos : 0 < num_interp) :
    (o.countsAgree num_interp = true ∧
      ∀ t, filesAt (o.calls num_interp) t.place = o.fn t) ↔ Complete o.fn num_interp := by
  rw [countsAgree_iff]
  constructor
  · rintro ⟨⟨hcounts, hlpf⟩, hplace⟩
    -- the trees of the GV of the low-pass filter never are in their place
    have hgvf := (filesAt_place o num_interp .ts_gvf).symm.trans (hplace .ts_gvf)
    have hgvf' := (filesAt_place o num_interp .ms_gvf).symm.trans (hplace .ms_gvf)
    have hgvm := (filesAt_place o num_interp .ms_gvm).symm.trans (hplace .ms_gvm)
    have hgvm' := (filesAt_place o num_interp .ts_gvm).symm.trans (hplace .ts_gvm)
    have hgvl := (filesAt_place o num_interp .ms_gvl).symm.trans (hplace .ms_gvl)
    have hgvl' := (filesAt_place o num_interp .ts_gvl).symm.trans (hplace .ts_gvl)
    have hwindow := (filesAt_place o num_interp .ws_lpf).symm.trans (hplace .ws_lpf)
    have hgvf_nil : o.fn .ts_gvf = [] := hgvf.symm
    have hstray : ¬ o.GVAstray num_interp := by
      rintro ⟨-, hms, hts⟩
      rw [hgvf_nil, List.length_nil] at hts
      omega
    simp only [if_neg hstray, List.append_nil,
      ite_eq_self_iff] at hgvm hgvm' hgvl hgvl' hgvf' hwindow
    refine ⟨hcounts, (lpf_iff hpos).mp ⟨hlpf, hwindow⟩, (gvComplete_iff hpos).mp ⟨hgvm, hgvm'⟩,
      (gvComplete_iff hpos).mp ⟨hgvl, hgvl'⟩, hgvf_nil, ?_⟩
    refine hgvf'.symm.imp_right ?_
    rintro ⟨htrue, hms, -⟩
    refine ⟨hms.symm, fun hnil => ?_⟩
    -- with the low-pass filter, all of its models are there
    rcases hlpf with hfalse | ⟨hcount, -⟩
    · exact Bool.noConfusion (htrue.symm.trans hfalse)
    · rw [hnil, List.length_nil] at hcount
      omega
  · intro h
    obtain ⟨hlpf, hwindow⟩ := (lpf_iff hpos).mpr h.lpf
    obtain ⟨hgvm, hgvm'⟩ := (gvComplete_iff hpos).mpr h.gvm
    obtain ⟨hgvl, hgvl'⟩ := (gvComplete_iff hpos).mpr h.gvl
    have hstray : ¬ o.GVAstray num_interp := by
      rintro ⟨-, hms, hts⟩
      rw [h.gvf.1, List.length_nil] at hts
      omega
    have hlpf_or : o.hasLpf = true ∨ o.hasLpf = false := by
      cases o.hasLpf
      · exact .inr rfl
      · exact .inl rfl
    refine ⟨⟨h.counts, hlpf⟩, fun t => ?_⟩
    rw [filesAt_place]
    cases t <;> simp only [if_neg hstray, List.append_nil, ite_eq_self_iff]
    case ms_lpf =>
      exact hlpf_or.imp_right fun hfalse => ((hasLpf_eq_false o).mp hfalse).1
    case ts_lpf =>
      exact hlpf_or.imp_right fun hfalse => ((hasLpf_eq_false o).mp hfalse).2
    case ws_lpf => exact hwindow
    case ms_gvm => exact hgvm
    case ts_gvm => exact hgvm'
    case ms_gvl => exact hgvl
    case ts_gvl => exact hgvl'
    case ts_gvf => exact h.gvf.1.symm
    case ms_gvf =>
      refine (h.gvf.2.imp_right ?_).symm
      rintro ⟨hms, hsome⟩
      refine ⟨hlpf_or.resolve_right fun hfalse => hsome ((hasLpf_eq_false o).mp hfalse).1,
        hms.symm, ?_⟩
      rw [hms, h.gvf.1, List.length_nil]
      exact hpos.ne'

end Complete

-- ---------------------------------------------------------------------------
-- The scan of complete options
-- ---------------------------------------------------------------------------

section Scan

variable {canOpen : Str → Bool} {capacity : Table → Nat} {num_interp : Nat}

/-- After all options a table has the values of its own ones, in their order. -/
theorem fn_applyItems {items : List (List Str)}
    (hitems : ∀ item ∈ items, IsItem canOpen num_interp item) (o : Options) (t : Table) :
    (items.foldl applyItem o).fn t = o.fn t ++ items.flatMap (valuesFor t) := by
  induction items generalizing o with
  | nil => exact (List.append_nil _).symm
  | cons item items ih =>
    rw [List.foldl_cons, ih (fun i hi => hitems i (List.mem_cons_of_mem _ hi)),
      fn_applyItem (hitems item List.mem_cons_self), List.append_assoc, List.flatMap_cons]

/-- **The scan of complete options**, up to the last argument. -/
theorem readOptions_items {items : List (List Str)} {last : Str} {o : Options}
    (hitems : ∀ item ∈ items, IsItem canOpen num_interp item)
    (hroom : ∀ t, (o.fn t).length + (items.flatMap (valuesFor t)).length ≤ capacity t) :
    readOptions canOpen capacity num_interp (items.flatten ++ [last]).length
        (items.flatten ++ [last]) o
      = .done (items.foldl applyItem o) := by
  induction items generalizing o with
  | nil =>
    rw [readOptions.eq_def]
    rfl
  | cons item items ih =>
    have hitem := hitems item List.mem_cons_self
    -- an option is read while two arguments are left
    have hlen : 2 ≤ (item ++ (items.flatten ++ [last])).length := by
      have hpos := hitem.length_pos
      simp only [List.length_append, List.length_singleton]
      omega
    rw [List.flatten_cons, List.append_assoc, readOptions_item hitem hlen, List.foldl_cons]
    · refine ih (fun i hi => hitems i (List.mem_cons_of_mem _ hi)) fun t => ?_
      have ht := hroom t
      -- what the option used of a table is gone from its room
      rw [fn_applyItem hitem, List.length_append]
      rw [List.flatMap_cons, List.length_append] at ht
      omega
    · intro t
      have ht := hroom t
      rw [List.flatMap_cons, List.length_append] at ht
      omega

end Scan

/-- No option but `-i` sets the rates. -/
def Opt.KeepsRates : Opt → Prop
  | .flag set => ∀ o, (set o).rate_interp = o.rate_interp
  | .value set => ∀ v o, (set v o).rate_interp = o.rate_interp
  | _ => True

/-- No option but `-i` touches the rates. -/
theorem optionOf_keepsRates (arg : Str) : (optionOf arg).KeepsRates := by
  unfold optionOf
  split
  · split <;> (try split) <;> simp [Opt.KeepsRates]
  · trivial

/-- The search and the scan agree on what `-i` is. -/
theorem optionOf_of_isInterp {arg : Str} (h : isInterp arg = true) : optionOf arg = .interp := by
  rw [isInterp, Bool.and_eq_true, beq_iff_eq, beq_iff_eq] at h
  rw [optionOf, if_pos h.1, h.2]
  rfl

/-- The options of the second pass that set the rates are those of the first. -/
theorem isInterp_of_optionOf {arg : Str} (h : optionOf arg = .interp) : isInterp arg = true := by
  unfold optionOf at h
  split at h
  · next hdash =>
    -- the letter of each other option decides for another branch
    split at h
    case h_16 hi => simp [isInterp, hdash, hi]
    all_goals first | cases h | (split at h <;> cases h)
  · cases h

/-- What a list of options gives for the rates, when only `-i` sets them. -/
theorem rate_applyItem {item : List Str} (hplain : ∀ arg ∈ item, isInterp arg = false)
    (o : Options) : (applyItem o item).rate_interp = o.rate_interp := by
  cases item with
  | nil => rfl
  | cons arg values =>
    have hkeeps := optionOf_keepsRates arg
    rw [applyItem]
    cases hopt : optionOf arg with
    | interp =>
      -- `-i` is not among them
      exact Bool.noConfusion
        ((isInterp_of_optionOf hopt).symm.trans (hplain arg List.mem_cons_self))
    | flag set =>
      rw [hopt] at hkeeps
      exact hkeeps o
    | value set =>
      rw [hopt] at hkeeps
      exact hkeeps _ o
    | file t => rfl
    | label => rfl
    | out => rfl
    | leave e => rfl

/-- Options without `-i` leave the rates. -/
theorem rate_applyItems {items : List (List Str)}
    (hplain : ∀ item ∈ items, ∀ arg ∈ item, isInterp arg = false) (o : Options) :
    (items.foldl applyItem o).rate_interp = o.rate_interp := by
  induction items generalizing o with
  | nil => rfl
  | cons item items ih =>
    rw [List.foldl_cons, ih fun i hi => hplain i (List.mem_cons_of_mem _ hi),
      rate_applyItem (hplain item List.mem_cons_self)]

-- ---------------------------------------------------------------------------
-- Lists of options
-- ---------------------------------------------------------------------------

/-- `-i n f1 .. fn`. -/
structure Interpolation where
  arg : Str
  number : Str
  rates : List Str

def Interpolation.args (i : Interpolation) : List Str := i.arg :: i.number :: i.rates

/-- A list of options: `-i` once at most, those before it and after it, and an argument at
the end that is not looked at. -/
structure VoiceOptions where
  before : List (List Str)
  interp : Option Interpolation
  after : List (List Str)
  last : Str

namespace VoiceOptions

def items (v : VoiceOptions) : List (List Str) :=
  v.before ++ (v.interp.map Interpolation.args).toList ++ v.after

def argv (v : VoiceOptions) : List Str := v.items.flatten ++ [v.last]

/-- The number of speakers, and their rates. -/
def speakers (v : VoiceOptions) : Nat :=
  match v.interp with
  | none => 1
  | some i => i.rates.length

def rates (v : VoiceOptions) : List ℚ :=
  match v.interp with
  | none => [1]
  | some i => i.rates.map atof

/-- The files that are given for a table, in this order. -/
def given (v : VoiceOptions) (t : Table) : List Str := v.items.flatMap (valuesFor t)

/-- The options are complete, and nothing but `-i` starts like it. -/
structure Valid (canOpen : Str → Bool) (v : VoiceOptions) : Prop where
  isItem : ∀ item ∈ v.before ++ v.after, IsItem canOpen v.speakers item
  plain : ∀ item ∈ v.before ++ v.after, ∀ arg ∈ item, isInterp arg = false
  last_plain : isInterp v.last = false
  arg_eq : ∀ i ∈ v.interp, isInterp i.arg = true
  number_eq : ∀ i ∈ v.interp, atoi i.number = i.rates.length
  rates_pos : ∀ i ∈ v.interp, 0 < i.rates.length
  rates_plain : ∀ i ∈ v.interp, ∀ r ∈ i.rates, isInterp r = false

/-- **The options do what they say**: both scans find the number of speakers, the rates and
the files in the order given, and each table is loaded into the place that its option names,
which has no other files. -/
def Meant (canOpen : Str → Bool) (v : VoiceOptions) : Prop :=
  GetNumInterp v.argv = .done v.speakers ∧
    ∃ o, readOptions canOpen (Table.capacity v.argv.length v.speakers) v.speakers v.argv.length
        v.argv { rate_interp := List.replicate v.speakers 1 } = .done o ∧
      o.rate_interp = v.rates ∧ (∀ t, o.fn t = v.given t) ∧
      load canOpen v.argv = .done (o.calls v.speakers) ∧
      ∀ t, filesAt (o.calls v.speakers) t.place = v.given t

end VoiceOptions

-- ---------------------------------------------------------------------------
-- The search for the number of speakers
-- ---------------------------------------------------------------------------

/-- A list that is cut into units, after its first argument. -/
theorem GetNumInterp_of_units {arg : Str} {units : List (List Str)}
    (hunits : ∀ unit ∈ units, IsSearchUnit unit) :
    GetNumInterp (arg :: units.flatten) = .done (speakersFrom 1 units) := by
  rw [GetNumInterp, List.tail_cons]
  exact searchInterp_flatten units hunits 1

theorem flatten_singletons (args : List Str) : (args.map ([·])).flatten = args := by
  rw [← List.flatMap_def]
  exact List.flatMap_singleton' args

/-- A list without `-i` after its first argument. -/
theorem GetNumInterp_plain {arg : Str} {args : List Str}
    (hargs : ∀ arg ∈ args, isInterp arg = false) : GetNumInterp (arg :: args) = .done 1 := by
  obtain ⟨hunits, hspeakers⟩ := searchUnits_plain args hargs 1
  rw [← hspeakers, ← @GetNumInterp_of_units arg _ hunits, flatten_singletons]

/-- A list with one `-i` after its first argument. -/
theorem GetNumInterp_interp {arg i number : Str} {before after : List Str}
    (hbefore : ∀ arg ∈ before, isInterp arg = false) (hi : isInterp i = true)
    (hafter : ∀ arg ∈ after, isInterp arg = false) :
    GetNumInterp (arg :: (before ++ i :: number :: after)) = .done (max 1 (atoi number)).toNat := by
  obtain ⟨hunits, hspeakers⟩ := searchUnits_plain before hbefore 1
  obtain ⟨hunits', hspeakers'⟩ := searchUnits_plain after hafter (max 1 (atoi number)).toNat
  -- the first pass steps over `-i` and its number together, and else one by one
  have hcut : ∀ unit ∈ before.map ([·]) ++ [i, number] :: after.map ([·]), IsSearchUnit unit := by
    intro unit hunit
    rcases List.mem_append.mp hunit with hunit | hunit
    · exact hunits unit hunit
    · rcases List.mem_cons.mp hunit with rfl | hunit
      · exact hi
      · exact hunits' unit hunit
  have hflat : before ++ i :: number :: after
      = (before.map ([·]) ++ [i, number] :: after.map ([·])).flatten := by
    rw [List.flatten_append, List.flatten_cons, flatten_singletons, flatten_singletons]
    rfl
  -- behind `-i` nothing changes the number
  have hlast : speakersFrom 1 (before.map ([·]) ++ [i, number] :: after.map ([·]))
      = (max 1 (atoi number)).toNat := by
    rw [speakersFrom, List.foldl_append, List.foldl_cons]
    exact hspeakers'
  rw [hflat, GetNumInterp_of_units hcut, hlast]

/-- A number is not an option. -/
theorem atoi_of_isInterp {arg : Str} (h : isInterp arg = true) : atoi arg = 0 := by
  obtain ⟨rest, rfl⟩ : ∃ rest, arg = '-' :: 'i' :: rest := by
    rw [isInterp, Bool.and_eq_true, beq_iff_eq, beq_iff_eq] at h
    rcases arg with _ | ⟨c, _ | ⟨d, rest⟩⟩
    · exact absurd h.1 (by decide)
    · exact absurd h.2 (by decide : '\x00' ≠ 'i')
    · exact ⟨rest, by rw [← h.1, ← h.2]; rfl⟩
  rfl

namespace VoiceOptions

variable {canOpen : Str → Bool} {v : VoiceOptions}

theorem Valid.speakers_pos (hv : v.Valid canOpen) : 0 < v.speakers := by
  rw [speakers]
  split
  · exact Nat.one_pos
  · next i hi => exact hv.rates_pos i hi

/-- Only the option `-i` itself is taken for one. -/
theorem Valid.others_plain (hv : v.Valid canOpen) :
    (∀ arg ∈ v.before.flatten, isInterp arg = false) ∧
      ∀ arg ∈ v.after.flatten ++ [v.last], isInterp arg = false := by
  have hplain : ∀ items : List (List Str), (∀ item ∈ items, item ∈ v.before ++ v.after) →
      ∀ arg ∈ items.flatten, isInterp arg = false := by
    intro items hsub arg harg
    obtain ⟨item, hitem, hmem⟩ := List.mem_flatten.mp harg
    exact hv.plain item (hsub item hitem) arg hmem
  refine ⟨hplain v.before fun item h => List.mem_append_left _ h, fun arg harg => ?_⟩
  rcases List.mem_append.mp harg with harg | harg
  · exact hplain v.after (fun item h => List.mem_append_right _ h) arg harg
  · rw [List.mem_singleton.mp harg]
    exact hv.last_plain

/-- One speaker, when none are given. -/
theorem Valid.getNumInterp_none (hv : v.Valid canOpen) (hinterp : v.interp = none) :
    GetNumInterp v.argv = .done v.speakers := by
  have hspeakers : v.speakers = 1 := by rw [speakers, hinterp]
  have hargv : ∀ arg ∈ v.argv, isInterp arg = false := by
    rw [argv, items, hinterp, Option.map_none, Option.toList_none, List.append_nil,
      List.flatten_append, List.append_assoc]
    intro arg harg
    rcases List.mem_append.mp harg with harg | harg
    · exact hv.others_plain.1 arg harg
    · exact hv.others_plain.2 arg harg
  obtain ⟨arg, args, hcons⟩ : ∃ arg args, v.argv = arg :: args :=
    List.exists_cons_of_ne_nil (List.append_ne_nil_of_right_ne_nil _ (List.cons_ne_nil _ _))
  rw [hcons] at hargv ⊢
  rw [GetNumInterp_plain fun a ha => hargv a (List.mem_cons_of_mem _ ha), hspeakers]

section Given

variable {i : Interpolation} (hv : v.Valid canOpen) (hinterp : v.interp = some i)

include hinterp

theorem argv_of_interp :
    v.argv = v.before.flatten
      ++ i.arg :: i.number :: (i.rates ++ (v.after.flatten ++ [v.last])) := by
  rw [argv, items, hinterp, Option.map_some, Option.toList_some, List.flatten_append,
    List.flatten_append, List.flatten_singleton, Interpolation.args]
  simp

include hv

/-- No argument after the number is `-i`. -/
theorem Valid.rates_after_plain :
    ∀ arg ∈ i.rates ++ (v.after.flatten ++ [v.last]), isInterp arg = false := by
  intro arg harg
  rcases List.mem_append.mp harg with harg | harg
  · exact hv.rates_plain i hinterp arg harg
  · exact hv.others_plain.2 arg harg

/-- As the first argument `-i` itself is passed by. -/
theorem Valid.getNumInterp_first (hbefore : v.before = []) : GetNumInterp v.argv = .done 1 := by
  have hnumber : isInterp i.number = false := by
    by_contra h
    have hcount := hv.number_eq i hinterp
    have hpos := hv.rates_pos i hinterp
    rw [atoi_of_isInterp (Bool.eq_true_of_not_eq_false h)] at hcount
    omega
  rw [argv_of_interp hinterp, hbefore, List.flatten_nil, List.nil_append, GetNumInterp_plain]
  intro arg harg
  rcases List.mem_cons.mp harg with rfl | harg
  · exact hnumber
  · exact hv.rates_after_plain hinterp arg harg

/-- Behind another option it is found. -/
theorem Valid.getNumInterp_later (hbefore : v.before ≠ []) :
    GetNumInterp v.argv = .done v.speakers := by
  -- the first argument is not looked at; here it is another option's
  obtain ⟨item, before, hfirst⟩ := List.exists_cons_of_ne_nil hbefore
  have hitem := hv.isItem item (List.mem_append_left _ (hfirst ▸ List.mem_cons_self))
  obtain ⟨arg, values, rfl⟩ := List.exists_cons_of_length_pos hitem.length_pos
  have hflat : v.before.flatten = arg :: (values ++ before.flatten) := by
    rw [hfirst, List.flatten_cons]
    rfl
  have hplain := hv.others_plain.1
  have hcount : (max 1 (atoi i.number)).toNat = v.speakers := by
    have hpos := hv.rates_pos i hinterp
    rw [hv.number_eq i hinterp, speakers, hinterp]
    simp only
    omega
  rw [hflat] at hplain
  rw [argv_of_interp hinterp, hflat, List.cons_append,
    GetNumInterp_interp (fun a ha => hplain a (List.mem_cons_of_mem _ ha)) (hv.arg_eq i hinterp)
      (hv.rates_after_plain hinterp), hcount]

end Given

/-- The first of the options is not seen by the search. -/
theorem Valid.getNumInterp_iff (hv : v.Valid canOpen) :
    GetNumInterp v.argv = .done v.speakers ↔
      (v.interp.isSome → v.before = [] → v.speakers = 1) := by
  cases hinterp : v.interp with
  | none => exact iff_of_true (hv.getNumInterp_none hinterp) fun h => Bool.noConfusion h
  | some i =>
    by_cases hbefore : v.before = []
    · rw [hv.getNumInterp_first hinterp hbefore, Outcome.done.injEq]
      exact ⟨fun h _ _ => h.symm, fun h => (h rfl hbefore).symm⟩
    · exact iff_of_true (hv.getNumInterp_later hinterp hbefore) fun _ h => absurd h hbefore

/-- A valid call is made of complete options. -/
theorem Valid.isItem_items (hv : v.Valid canOpen) :
    ∀ item ∈ v.items, IsItem canOpen v.speakers item := by
  intro item hitem
  rw [items] at hitem
  rcases List.mem_append.mp hitem with hitem | hitem
  · rcases List.mem_append.mp hitem with hitem | hitem
    · exact hv.isItem item (List.mem_append_left _ hitem)
    · obtain ⟨i, hi, rfl⟩ := Option.map_eq_some_iff.mp (Option.mem_toList.mp hitem)
      refine ⟨?_, fun hout => ?_⟩
      · rw [optionOf_of_isInterp (hv.arg_eq i hi), speakers, hi]
        rfl
      · rw [optionOf_of_isInterp (hv.arg_eq i hi)] at hout
        cases hout
  · exact hv.isItem item (List.mem_append_right _ hitem)

/-- The rates that the scan is left with. -/
theorem Valid.rate_items (hv : v.Valid canOpen) (o : Options)
    (ho : o.rate_interp = List.replicate v.speakers 1) :
    (v.items.foldl applyItem o).rate_interp = v.rates := by
  rw [items, List.foldl_append, List.foldl_append,
    rate_applyItems fun item h => hv.plain item (List.mem_append_right _ h)]
  cases hinterp : v.interp with
  | none =>
    rw [Option.map_none, Option.toList_none, List.foldl_nil,
      rate_applyItems (fun item h => hv.plain item (List.mem_append_left _ h)), ho, speakers, rates,
      hinterp]
    rfl
  | some i =>
    rw [Option.map_some, Option.toList_some, List.foldl_cons, List.foldl_nil, rates, hinterp,
      Interpolation.args, applyItem, optionOf_of_isInterp (hv.arg_eq i hinterp)]
    rfl

/-- The last argument is no option's value. -/
theorem length_given_lt (v : VoiceOptions) (t : Table) : (v.given t).length < v.argv.length := by
  have hitem : ∀ item : List Str, (valuesFor t item).length ≤ item.length := by
    intro item
    rw [valuesFor]
    split
    · rw [List.length_tail]
      exact Nat.sub_le _ _
    · exact Nat.zero_le _
  have hsum : (v.items.flatMap (valuesFor t)).length ≤ v.items.flatten.length := by
    rw [List.length_flatMap, List.length_flatten]
    exact List.sum_le_sum fun item _ => hitem item
  rw [given, argv, List.length_append, List.length_singleton]
  omega

/-- A complete voice does not give more than the tables have room for. -/
theorem capacity_of_complete (h : Complete v.given v.speakers) (t : Table) :
    (v.given t).length ≤ Table.capacity v.argv.length v.speakers t := by
  have hwindow := (length_given_lt v t).le
  -- each table has room for one file of each speaker
  have hgv : ∀ ms ts : List Str, GVComplete v.speakers ms ts →
      ms.length ≤ v.speakers ∧ ts.length ≤ v.speakers := by
    rintro ms ts (⟨rfl, rfl⟩ | ⟨hms, rfl | hts⟩)
    · exact ⟨Nat.zero_le _, Nat.zero_le _⟩
    · exact ⟨hms.le, Nat.zero_le _⟩
    · exact ⟨hms.le, hts.le⟩
  have hlpf : (v.given .ms_lpf).length ≤ v.speakers ∧ (v.given .ts_lpf).length ≤ v.speakers := by
    rcases h.lpf with ⟨hms, hts, -⟩ | ⟨hms, hts⟩
    · rw [hms, hts]
      exact ⟨Nat.zero_le _, Nat.zero_le _⟩
    · exact ⟨hms.le, hts.le⟩
  cases t with
  | ws_mgc => exact hwindow
  | ws_lf0 => exact hwindow
  | ws_lpf => exact hwindow
  | ts_dur => exact (h.counts _ (by decide)).le
  | ts_mgc => exact (h.counts _ (by decide)).le
  | ts_lf0 => exact (h.counts _ (by decide)).le
  | ms_dur => exact (h.counts _ (by decide)).le
  | ms_mgc => exact (h.counts _ (by decide)).le
  | ms_lf0 => exact (h.counts _ (by decide)).le
  | ms_lpf => exact hlpf.1
  | ts_lpf => exact hlpf.2
  | ms_gvm => exact (hgv _ _ h.gvm).1
  | ts_gvm => exact (hgv _ _ h.gvm).2
  | ms_gvl => exact (hgv _ _ h.gvl).1
  | ts_gvl => exact (hgv _ _ h.gvl).2
  | ts_gvf =>
    rw [h.gvf.1]
    exact Nat.zero_le _
  | ms_gvf =>
    rcases h.gvf.2 with hnone | ⟨hms, -⟩
    · rw [hnone]
      exact Nat.zero_le _
    · exact hms.le

/-- **When the options do what they say**: `-i` is not the first of them, but for one
speaker, and the voice is complete. -/
theorem meant_iff (hv : v.Valid canOpen) :
    v.Meant canOpen ↔
      (v.interp.isSome → v.before = [] → v.speakers = 1) ∧ Complete v.given v.speakers := by
  rw [Meant, ← hv.getNumInterp_iff]
  constructor
  · rintro ⟨hsearch, o, hread, -, hfn, hload, hplace⟩
    have hgiven : v.given = o.fn := (funext hfn).symm
    rw [hgiven, ← inPlace_iff hv.speakers_pos]
    refine ⟨hsearch, ?_, fun t => (hplace t).trans (hfn t).symm⟩
    -- a voice that is loaded has passed the check
    rw [load, hsearch] at hload
    split at hload
    · cases hload
    · rw [Outcome.bind_done, hread, Outcome.bind_done] at hload
      by_contra hcounts
      rw [if_neg hcounts] at hload
      cases hload
  · rintro ⟨hsearch, hcomplete⟩
    have hread : readOptions canOpen (Table.capacity v.argv.length v.speakers) v.speakers
        v.argv.length v.argv { rate_interp := List.replicate v.speakers 1 }
          = .done (v.items.foldl applyItem { rate_interp := List.replicate v.speakers 1 }) := by
      refine readOptions_items hv.isItem_items fun t => ?_
      rw [List.length_nil, Nat.zero_add]
      exact capacity_of_complete hcomplete t
    have hfn : ∀ t, (v.items.foldl applyItem { rate_interp := List.replicate v.speakers 1 }).fn t
        = v.given t := by
      intro t
      rw [fn_applyItems hv.isItem_items]
      rfl
    have hplaced := (inPlace_iff hv.speakers_pos).mpr ((funext hfn : _ = v.given) ▸ hcomplete)
    refine ⟨hsearch, _, hread, hv.rate_items _ rfl, hfn, ?_, fun t => (hplaced.2 t).trans (hfn t)⟩
    have hargc : v.argv.length ≠ 1 := by
      -- there is a duration model for each speaker
      have hlt := length_given_lt v .ms_dur
      rw [hcomplete.counts .ms_dur (by decide)] at hlt
      have hpos := hv.speakers_pos
      omega
    rw [load, if_neg hargc, hsearch, Outcome.bind_done, hread, Outcome.bind_done,
      if_pos hplaced.1]

/-- Files with their options. -/
def files (fs : List (String × String)) : List (List Str) :=
  fs.map fun f => [f.1.toList, f.2.toList]

/-- Options of files are complete, and not `-i`. -/
theorem isItem_files {fs : List (String × String)}
    (hfs : ∀ f ∈ fs, (optionOf f.1.toList).table.isSome = true ∧
      isInterp f.1.toList = false ∧ isInterp f.2.toList = false) (n : Nat) :
    ∀ item ∈ files fs, IsItem canOpen n item ∧ ∀ arg ∈ item, isInterp arg = false := by
  intro item hitem
  obtain ⟨f, hf, rfl⟩ := List.mem_map.mp hitem
  obtain ⟨htable, harg, hvalue⟩ := hfs f hf
  refine ⟨⟨?_, fun hout => ?_⟩, by simp [harg, hvalue]⟩
  · cases hopt : optionOf f.1.toList with
    | file t => rfl
    | _ =>
      rw [hopt] at htable
      cases htable
  · rw [hout] at htable
    cases htable

/-- Calls that give files only, with or without `-i`. -/
theorem valid_files {before after : List (String × String)} {interp : Option Interpolation}
    {last : Str}
    (hfs : ∀ f ∈ before ++ after, (optionOf f.1.toList).table.isSome = true ∧
      isInterp f.1.toList = false ∧ isInterp f.2.toList = false)
    (hlast : isInterp last = false)
    (hinterp : ∀ i ∈ interp, isInterp i.arg = true ∧ atoi i.number = i.rates.length ∧
      0 < i.rates.length ∧ ∀ r ∈ i.rates, isInterp r = false) :
    Valid canOpen ⟨files before, interp, files after, last⟩ := by
  have hitems : files before ++ files after = files (before ++ after) := List.map_append.symm
  refine ⟨?_, ?_, hlast, fun i hi => (hinterp i hi).1, fun i hi => (hinterp i hi).2.1,
    fun i hi => (hinterp i hi).2.2.1, fun i hi => (hinterp i hi).2.2.2⟩
  · intro item hitem
    exact (isItem_files hfs _ item (hitems ▸ hitem)).1
  · intro item hitem
    exact (@isItem_files canOpen _ hfs 1 item (hitems ▸ hitem)).2

/-- Two voices of durations, spectrum and lf0. -/
def twoVoices : List (String × String) :=
  [("-td", "d1"), ("-td", "d2"), ("-tm", "m1"), ("-tm", "m2"), ("-tf", "f1"), ("-tf", "f2"),
    ("-md", "pd1"), ("-md", "pd2"), ("-mm", "pm1"), ("-mm", "pm2"), ("-mf", "pf1"), ("-mf", "pf2")]

/-- One voice with a low-pass filter, and the model and the tree of its GV. -/
def voiceWithLpf : List (String × String) :=
  [("-td", "d"), ("-tm", "m"), ("-tf", "f"), ("-tl", "l"), ("-md", "pd"), ("-mm", "pm"),
    ("-mf", "pf"), ("-ml", "pl"), ("-cl", "cl"), ("-el", "el")]

def half : Option Interpolation := some ⟨"-i".toList, "2".toList, ["0.5".toList, "0.5".toList]⟩

/-- `-i 2 0.5 0.5` is written as it should be. -/
theorem half_valid : ∀ i ∈ half, isInterp i.arg = true ∧ atoi i.number = i.rates.length ∧
    0 < i.rates.length ∧ ∀ r ∈ i.rates, isInterp r = false := by
  intro i hi
  obtain rfl := Option.some.inj hi
  decide

/-- Two voices do what they say with `-i` after their files. -/
theorem meant_interpLast :
    Meant (fun _ => false) ⟨files twoVoices, half, files [], "x.lab".toList⟩ :=
  (meant_iff (valid_files (by decide) (by decide) half_valid)).mpr
    ⟨by decide, by decide, by decide, .inl (by decide), .inl (by decide), by decide⟩

/-- With `-i` before their files the search finds one speaker, and the GV of a low-pass
filter does not come to its stream. -/
theorem not_meant :
    ¬ Meant (fun _ => false) ⟨files [], half, files twoVoices, "x.lab".toList⟩ ∧
      ¬ Meant (fun _ => false) ⟨files voiceWithLpf, none, files [], "x.lab".toList⟩ := by
  constructor
  · rintro ⟨hsearch, -⟩
    have hone : GetNumInterp (VoiceOptions.argv ⟨files [], half, files twoVoices, "x.lab".toList⟩)
        = .done 1 := GetNumInterp_plain (by decide)
    exact absurd (hone.symm.trans hsearch) (by decide)
  · rintro ⟨-, o, -, -, -, -, hplace⟩
    have hnone : [] = given ⟨files voiceWithLpf, none, files [], "x.lab".toList⟩ .ts_gvf :=
      (filesAt_place o 1 .ts_gvf).symm.trans (hplace .ts_gvf)
    exact absurd hnone (by decide)

end VoiceOptions

end Vox.Mage
