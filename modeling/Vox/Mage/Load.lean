import Vox.Mage.Label

/-!
# MAGE — the option list of a voice

`Engine::load` is `hts_engine`'s `main` turned into a method: it walks an
argument array with `while( --argc )` and moves `argc` and `argv` by hand, in
one place for an option and in another for its values. `GetNumInterp` walks the
same array before it, from the second argument on, to find the size of the
tables. `Mage::parseConfigFile` makes such an array from a file.

Three ways out of this code are told apart (`Outcome`): it is done, it has left
the process through `Usage`, `Error` or a failed `HTS_fopen`, or it has read or
written outside the arrays it was given or has allocated. Nothing is said about
what happens after the last of these.

* **The pointer.** `argv` only moves forward, so it is modelled by the part of
  the array from where it points; reading `* argv` when nothing is left is
  `outOfBounds`. `argc` is a counter of its own, as in the source, and may pass
  zero.
* **The tables.** A `fn_*` table is the list of the entries written to it, and
  has the capacity it was allocated with. Allocation is taken to succeed.

An option's letters decide what it does (`optionOf`, the nested `switch`); how
many arguments it takes with it follows from that.
-/

namespace Vox.Mage

open Lib

/-- A C string, up to its terminating NUL. -/
abbrev Str := List Char

/-- `str[k]`, which is the terminating NUL at the end of the string. -/
def charAt (str : Str) (k : Nat) : Char := str.getD k '\x00'

def intMax : Int := 2 ^ 31 - 1

/-- `atoi`. A value that is no `int` saturates. -/
def atoi (str : Str) : Int :=
  let signed := takeSign (str.dropWhile isspace)
  max (-intMax - 1) (min intMax (signed.1 * digitsValue 10 (signed.2.takeWhile Char.isDigit)))

-- ---------------------------------------------------------------------------
-- Ways out
-- ---------------------------------------------------------------------------

/-- A call that ends the process. -/
inductive Exit
  | usage
  | error (message : List Char)
  deriving DecidableEq, Repr

/-- How a piece of the loader ends. -/
inductive Outcome (α : Type*)
  | done (a : α)
  | exited (e : Exit)
  | outOfBounds
  deriving DecidableEq, Repr

namespace Outcome

variable {α β : Type*}

/-- Go on with what the first piece has computed, if it came to its end. -/
def bind (x : Outcome α) (f : α → Outcome β) : Outcome β :=
  match x with
  | done a => f a
  | exited e => exited e
  | outOfBounds => outOfBounds

@[simp] theorem bind_done (a : α) (f : α → Outcome β) : (done a).bind f = f a := rfl

@[simp] theorem bind_exited (e : Exit) (f : α → Outcome β) :
    (exited e).bind f = exited e := rfl

@[simp] theorem bind_outOfBounds (f : α → Outcome β) :
    (outOfBounds : Outcome α).bind f = outOfBounds := rfl

theorem bind_eq_done {x : Outcome α} {f : α → Outcome β} {b : β} :
    x.bind f = done b ↔ ∃ a, x = done a ∧ f a = done b := by
  cases x with
  | done a => simp
  | exited e => simp
  | outOfBounds => simp

/-- A check that ends the process has been passed. -/
theorem check_eq_done {c : Prop} [Decidable c] {e : Exit} {x : Outcome α} {a : α} :
    (if c then exited e else x) = done a ↔ ¬ c ∧ x = done a := by
  by_cases hc : c
  · simp [hc]
  · simp [hc]

/-- Two pieces stay in bounds when the first does and what follows it does. -/
theorem bind_ne_outOfBounds {x : Outcome α} {f : α → Outcome β} :
    x.bind f ≠ outOfBounds ↔
      x ≠ outOfBounds ∧ ∀ a, x = done a → f a ≠ outOfBounds := by
  cases x with
  | done a => simp
  | exited e => simp
  | outOfBounds => simp

end Outcome

/-- `Error( 1, "hts_engine: Invalid option '-…'.\n" )`. -/
def invalidOption (letters : List Char) : Exit :=
  .error ("hts_engine: Invalid option '-".toList ++ letters ++ "'.\n".toList)

/-- `Error( 1, "hts_engine: specify %d models( trees )for each parameter.\n" )`. -/
def wrongCounts (num_interp : Nat) : Exit :=
  .error ("hts_engine: specify ".toList ++ (Nat.repr num_interp).toList
    ++ " models( trees )for each parameter.\n".toList)

/-- `HTS_error( 1, "HTS_fopen: Cannot open %s.\n" )`. -/
def cannotOpen (name : Str) : Exit :=
  .error ("HTS_fopen: Cannot open ".toList ++ name ++ ".\n".toList)

-- ---------------------------------------------------------------------------
-- The options
-- ---------------------------------------------------------------------------

/-- The file tables `fn_ts_*` (trees), `fn_ms_*` (models) and `fn_ws_*` (windows). -/
inductive Table
  | ts_dur | ts_mgc | ts_lf0 | ts_lpf
  | ms_dur | ms_mgc | ms_lf0 | ms_lpf
  | ws_mgc | ws_lf0 | ws_lpf
  | ts_gvm | ts_gvl | ts_gvf
  | ms_gvm | ms_gvl | ms_gvf
  deriving DecidableEq, Repr

/-- The number of entries a table is allocated with. -/
def Table.capacity (argc num_interp : Nat) : Table → Nat
  | .ws_mgc | .ws_lf0 | .ws_lpf => argc
  | _ => num_interp

/-- The variables that the scan sets. -/
structure Options where
  labfn : Option Str := none
  /-- The entries of each table; `num_*` is the length of the list. -/
  fn : Table → List Str := fun _ => []
  fn_gv_switch : Option Str := none
  sampling_rate : Int := 16000
  fperiod : Int := 80
  alpha : ℚ := 42 / 100
  stage : Int := 0
  beta : ℚ := 0
  audio_buff_size : Int := 1600
  uv_threshold : ℚ := 1 / 2
  gv_weight_mgc : ℚ := 1
  gv_weight_lf0 : ℚ := 1
  gv_weight_lpf : ℚ := 1
  half_tone : ℚ := 0
  phoneme_alignment : Bool := false
  speech_speed : ℚ := 1
  use_log_gain : Bool := false
  rate_interp : List ℚ

/-- `fn_*[num_*++] = value`. -/
def Options.store (o : Options) (t : Table) (value : Str) : Options :=
  { o with fn := Function.update o.fn t (o.fn t ++ [value]) }

/-- What the letters of an argument ask for. -/
inductive Opt
  /-- No option: the name of a label file. -/
  | label
  /-- An option that stands alone. -/
  | flag (set : Options → Options)
  /-- An option with a value. -/
  | value (set : Str → Options → Options)
  /-- An option whose value is the next entry of a table. -/
  | file (t : Table)
  /-- An option whose value is a file to write. The handle is only closed again. -/
  | out
  /-- `-i`: the number of speakers, and a rate for each of them. -/
  | interp
  | leave (e : Exit)

/-- `if( f < -24.0 ) f = -24.0; if( f > 24.0 ) f = 24.0;` -/
def clampHalfTone (f : ℚ) : ℚ :=
  let f := if f < -24 then -24 else f
  if f > 24 then 24 else f

/-- The `switch` on the letters of one argument. -/
def optionOf (arg : Str) : Opt :=
  if charAt arg 0 = '-' then
    match charAt arg 1 with
    | 'v' => match charAt arg 2 with
      | 'p' => .flag fun o => { o with phoneme_alignment := true }
      | c => .leave (invalidOption ['v', c])
    | 't' => match charAt arg 2 with
      | 'd' => .file .ts_dur
      | 'm' => .file .ts_mgc
      | 'f' | 'p' => .file .ts_lf0
      | 'l' => .file .ts_lpf
      | c => .leave (invalidOption ['t', c])
    | 'm' => match charAt arg 2 with
      | 'd' => .file .ms_dur
      | 'm' => .file .ms_mgc
      | 'f' | 'p' => .file .ms_lf0
      | 'l' => .file .ms_lpf
      | c => .leave (invalidOption ['m', c])
    | 'd' => match charAt arg 2 with
      | 'm' => .file .ws_mgc
      | 'f' | 'p' => .file .ws_lf0
      | 'l' => .file .ws_lpf
      | c => .leave (invalidOption ['d', c])
    | 'o' => match charAt arg 2 with
      | 'w' | 'r' | 'd' | 'm' | 'f' | 'p' | 'l' | 't' => .out
      | c => .leave (invalidOption ['o', c])
    | 'h' => .leave .usage
    | 's' => .value fun v o => { o with sampling_rate := atoi v }
    | 'p' => .value fun v o => { o with fperiod := atoi v }
    | 'a' => .value fun v o => { o with alpha := atof v }
    | 'g' => .value fun v o => { o with stage := atoi v }
    | 'l' => .flag fun o => { o with use_log_gain := true }
    | 'b' => .value fun v o => { o with beta := atof v }
    | 'r' => .value fun v o => { o with speech_speed := atof v }
    | 'f' => match charAt arg 2 with
      | 'm' => .value fun v o => { o with half_tone := clampHalfTone (atof v) }
      | c => .leave (invalidOption ['f', c])
    | 'u' => .value fun v o => { o with uv_threshold := atof v }
    | 'i' => .interp
    | 'e' => match charAt arg 2 with
      | 'm' => .file .ts_gvm
      | 'f' | 'p' => .file .ts_gvl
      | 'l' => .file .ts_gvf
      | c => .leave (invalidOption ['e', c])
    | 'c' => match charAt arg 2 with
      | 'm' => .file .ms_gvm
      | 'f' | 'p' => .file .ms_gvl
      | 'l' => .file .ms_gvf
      | c => .leave (invalidOption ['c', c])
    | 'j' => match charAt arg 2 with
      | 'm' => .value fun v o => { o with gv_weight_mgc := atof v }
      | 'f' | 'p' => .value fun v o => { o with gv_weight_lf0 := atof v }
      | 'l' => .value fun v o => { o with gv_weight_lpf := atof v }
      | c => .leave (invalidOption ['j', c])
    | 'k' => .value fun v o => { o with fn_gv_switch := some v }
    | 'z' => .value fun v o => { o with audio_buff_size := atoi v }
    | c => .leave (invalidOption [c])
  else .label

-- ---------------------------------------------------------------------------
-- The two scans
-- ---------------------------------------------------------------------------

/-- The search compares no more than the first two letters. -/
def isInterp (arg : Str) : Bool := charAt arg 0 == '-' && charAt arg 1 == 'i'

/-- The loop of `GetNumInterp`; `argv` is what follows `argv_search`. -/
def searchInterp (argc : Int) (argv : List Str) (num_interp : Nat) : Outcome Nat :=
  if argc - 1 = 0 then .done num_interp
  else match argv with
    | [] => .outOfBounds
    | arg :: argv =>
      if isInterp arg then
        match argv with
        | [] => .outOfBounds
        -- the number is skipped, whatever it looks like
        | v :: argv => searchInterp (argc - 1 - 1) argv (max 1 (atoi v)).toNat
      else searchInterp (argc - 1) argv num_interp

/-- `GetNumInterp`: the search starts at the second argument. -/
def GetNumInterp (argv : List Str) : Outcome Nat :=
  searchInterp argv.length argv.tail 1

/-- The loop of `Engine::load` over the options. `canOpen` says which files
`HTS_fopen` can open for writing. -/
def readOptions (canOpen : Str → Bool) (capacity : Table → Nat) (num_interp : Nat) (argc : Int)
    (argv : List Str) (o : Options) : Outcome Options :=
  if argc - 1 = 0 then .done o
  else match argv with
    | [] => .outOfBounds
    | arg :: argv =>
      match optionOf arg with
      | .label =>
        readOptions canOpen capacity num_interp (argc - 1) argv { o with labfn := some arg }
      | .flag set => readOptions canOpen capacity num_interp (argc - 1) argv (set o)
      | .value set => match argv with
        | [] => .outOfBounds
        | v :: argv => readOptions canOpen capacity num_interp (argc - 1 - 1) argv (set v o)
      | .file t => match argv with
        | [] => .outOfBounds
        | v :: argv =>
          if (o.fn t).length < capacity t then
            readOptions canOpen capacity num_interp (argc - 1 - 1) argv (o.store t v)
          else .outOfBounds
      | .out => match argv with
        | [] => .outOfBounds
        | v :: argv =>
          if canOpen v then
            readOptions canOpen capacity num_interp (argc - 1 - 1) argv o
          else .exited (cannotOpen v)
      | .interp =>
        -- `++argv` passes the number by, then each rate is read from `* ++argv`
        if num_interp ≤ argv.tail.length then
          readOptions canOpen capacity num_interp (argc - 1 - 1 - num_interp)
            (argv.tail.drop num_interp)
            { o with rate_interp := (argv.tail.take num_interp).map atof }
        else .outOfBounds
      | .leave e => .exited e
termination_by argv.length
decreasing_by
  all_goals simp only [List.length_cons, List.length_drop, List.length_tail]
  all_goals omega

-- ---------------------------------------------------------------------------
-- Loading
-- ---------------------------------------------------------------------------

/-- The calls of `Engine::load` into the synthesis library, less its first
argument `&engine` and the number of interpolated files, which is the length of
their tables. -/
inductive Call
  | initialize_engine (nstream : Nat)
  | load_duration_from_fn (ms ts : List Str)
  | load_parameter_from_fn (ms ts ws : List Str) (stream : Nat) (msd_flag : Bool)
  | load_gv_from_fn (ms : List Str) (ts : Option (List Str)) (stream : Nat)
  | load_gv_switch_from_fn (fn : Str)
  | set_sampling_rate (i : Int)
  | set_fperiod (i : Int)
  | set_alpha (f : ℚ)
  | set_gamma (i : Int)
  | set_log_gain (i : Bool)
  | set_beta (f : ℚ)
  | set_audio_buff_size (i : Int)
  | set_msd_threshold (stream : Nat) (f : ℚ)
  | set_gv_weight (stream : Nat) (f : ℚ)
  | set_duration_interpolation_weight (i : Nat) (f : ℚ)
  | set_parameter_interpolation_weight (stream i : Nat) (f : ℚ)
  | set_gv_interpolation_weight (stream i : Nat) (f : ℚ)
  deriving DecidableEq, Repr

namespace Options

/-- `num_ms_lpf > 0 || num_ts_lpf > 0`. -/
def hasLpf (o : Options) : Bool :=
  0 < (o.fn .ms_lpf).length || 0 < (o.fn .ts_lpf).length

/-- The number of models and trees is right. -/
def countsAgree (o : Options) (num_interp : Nat) : Bool :=
  [Table.ts_dur, .ts_mgc, .ts_lf0, .ms_dur, .ms_mgc, .ms_lf0].all
      (fun t => (o.fn t).length == num_interp) &&
    (!o.hasLpf || [Table.ms_lpf, .ts_lpf].all fun t => (o.fn t).length == num_interp)

/-- The GV files of one stream. The two branches of the source name their
stream separately. -/
def loadGV (o : Options) (num_interp : Nat) (ms ts : Table) (stream streamWithoutTrees : Nat) :
    List Call :=
  if num_interp = (o.fn ms).length then
    if (o.fn ms).length = (o.fn ts).length then
      [.load_gv_from_fn (o.fn ms) (some (o.fn ts)) stream]
    else [.load_gv_from_fn (o.fn ms) none streamWithoutTrees]
  else []

/-- What `Engine::load` does with the options it has read. -/
def calls (o : Options) (num_interp : Nat) : List Call :=
  let whenLpf (cs : List Call) : List Call := if o.hasLpf then cs else []
  let rates := o.rate_interp.zipIdx
  [.initialize_engine (if o.hasLpf then 3 else 2),
    .load_duration_from_fn (o.fn .ms_dur) (o.fn .ts_dur),
    .load_parameter_from_fn (o.fn .ms_mgc) (o.fn .ts_mgc) (o.fn .ws_mgc) 0 false,
    .load_parameter_from_fn (o.fn .ms_lf0) (o.fn .ts_lf0) (o.fn .ws_lf0) 1 true]
  ++ whenLpf [.load_parameter_from_fn (o.fn .ms_lpf) (o.fn .ts_lpf) (o.fn .ws_lpf) 2 false]
  ++ o.loadGV num_interp .ms_gvm .ts_gvm 0 0
  ++ o.loadGV num_interp .ms_gvl .ts_gvl 1 1
  -- with trees, the GV of the low-pass filter goes to stream 0
  ++ whenLpf (o.loadGV num_interp .ms_gvf .ts_gvf 0 2)
  ++ (o.fn_gv_switch.map Call.load_gv_switch_from_fn).toList
  ++ [.set_sampling_rate o.sampling_rate, .set_fperiod o.fperiod, .set_alpha o.alpha,
    .set_gamma o.stage, .set_log_gain o.use_log_gain, .set_beta o.beta,
    .set_audio_buff_size o.audio_buff_size, .set_msd_threshold 1 o.uv_threshold,
    .set_gv_weight 0 o.gv_weight_mgc, .set_gv_weight 1 o.gv_weight_lf0]
  ++ whenLpf [.set_gv_weight 2 o.gv_weight_lpf]
  ++ rates.flatMap (fun (f, i) =>
    [.set_duration_interpolation_weight i f, .set_parameter_interpolation_weight 0 i f,
      .set_parameter_interpolation_weight 1 i f]
    ++ whenLpf [.set_parameter_interpolation_weight 2 i f])
  ++ (if num_interp = (o.fn .ms_gvm).length then
      rates.map fun (f, i) => .set_gv_interpolation_weight 0 i f else [])
  ++ (if num_interp = (o.fn .ms_gvl).length then
      rates.map fun (f, i) => .set_gv_interpolation_weight 1 i f else [])
  ++ whenLpf (if num_interp = (o.fn .ms_gvf).length then
      rates.map fun (f, i) => .set_gv_interpolation_weight 2 i f else [])

end Options

/-- `Engine::load( argc, argv )`, as the calls it makes. -/
def load (canOpen : Str → Bool) (argv : List Str) : Outcome (List Call) :=
  if argv.length = 1 then .exited .usage
  else
    (GetNumInterp argv).bind fun num_interp =>
      (readOptions canOpen (Table.capacity argv.length num_interp) num_interp argv.length argv
        { rate_interp := List.replicate num_interp 1 }).bind fun o =>
          if o.countsAgree num_interp then .done (o.calls num_interp)
          else .exited (wrongCounts num_interp)

-- ---------------------------------------------------------------------------
-- Configuration files
-- ---------------------------------------------------------------------------

/-- The pieces of the file that `parseConfigFile` takes for arguments: what
spaces and line ends separate, less the pieces that are empty C strings. -/
def configWords (file : List Char) : List Str :=
  ((file.splitOn '\n').flatMap (·.splitOn ' ')).filter fun s => charAt s 0 != '\x00'

/-- `argv[k] = new char[maxStrLen]; strcpy( argv[k], s.c_str() ); k++;` -/
def storeArgument (argv : List Str) (s : List Char) : Outcome (List Str) :=
  if argv.length < maxNumOfArguments ∧ (c_str s).length < maxStrLen then
    .done (argv ++ [c_str s])
  else .outOfBounds

/-- The arguments are stored one after the other. -/
def storeArguments (argv : Outcome (List Str)) (words : List (List Char)) : Outcome (List Str) :=
  words.foldl (fun argv s => argv.bind (storeArgument · s)) argv

/-- `Mage::parseConfigFile`; `none` is a file that cannot be opened. -/
def parseConfigFile (file : Option (List Char)) : Outcome (List Str) :=
  match file with
  | none => .done []
  | some text => storeArguments (.done []) (configWords text)

/-- `Mage::addEngine( EngineName, confFilename )`, for a name that is not taken:
no arguments, no engine. -/
def addEngine (canOpen : Str → Bool) (file : Option (List Char)) :
    Outcome (Option (List Call)) :=
  (parseConfigFile file).bind fun argv =>
    if 0 < argv.length then (load canOpen argv).bind fun calls => .done (some calls)
    else .done none

end Vox.Mage
