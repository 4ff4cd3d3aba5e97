import Vox.Mage.Load

/-!
# MAGE — which option lists are read within bounds

Neither `GetNumInterp` nor the scan of `Engine::load` looks at `argc` before it
takes the value of an option, and both stop only when their counter is exactly
one before its decrement. Both counters keep step with the pointer, so a scan
stops in front of one unread argument, or not at all.

What follows from that is a condition on the list, stated without the scans:

* the search of `GetNumInterp` must be able to cut the list, from the second
  argument on, into single arguments and `-i` with a number (`IsSearchUnit`);
* the scan must be able to cut it into options that are complete for that number
  of speakers (`IsItem`), none given more often than its table has room, up to
  one argument that stays unread or an option that leaves the process (`Ends`).

Main results:

* `readOptions_inBounds_iff`, `GetNumInterp_inBounds_iff` — the two scans.
* `parseConfigFile_some` — the arguments of a configuration file.
* `reads_inBounds_iff` — the loader and the configuration file together: the
  condition is necessary and sufficient.
* `addVoice_complete` — the list that `SCMage_addVoice` makes, for every name of
  a voice, and `addVoice_without_trailing` — the same list without its last,
  empty argument.
-/

namespace Vox.Mage

open Lib

-- ---------------------------------------------------------------------------
-- Complete lists
-- ---------------------------------------------------------------------------

/-- The search takes `-i` with the argument after it, anything else by itself. -/
def IsSearchUnit : List Str → Prop
  | [arg] => isInterp arg = false
  | [arg, _] => isInterp arg = true
  | _ => False

/-- The number that the search ends with. -/
def speakersFrom (num_interp : Nat) (units : List (List Str)) : Nat :=
  units.foldl (fun n unit => match unit with
    | [_, v] => (max 1 (atoi v)).toNat
    | _ => n) num_interp

/-- How many arguments an option takes with it. -/
def Opt.arity (num_interp : Nat) : Opt → Option Nat
  | .label | .flag _ => some 0
  | .value _ | .file _ | .out => some 1
  | .interp => some (num_interp + 1)
  | .leave _ => none

def Opt.table : Opt → Option Table
  | .file t => some t
  | _ => none

/-- An option with all its arguments, that the scan gets past. -/
def IsItem (canOpen : Str → Bool) (num_interp : Nat) : List Str → Prop
  | [] => False
  | arg :: values =>
    (optionOf arg).arity num_interp = some values.length ∧
      (optionOf arg = .out → ∀ v ∈ values, canOpen v = true)

/-- How often an entry of the table `t` is given. -/
def uses (t : Table) (items : List (List Str)) : Nat :=
  items.countP fun item => (optionOf (item.headD [])).table == some t

/-- Where a scan may end: in front of a single argument, or with an option that
leaves the process. -/
inductive Ends (canOpen : Str → Bool) : List Str → Prop
  | last (arg : Str) : Ends canOpen [arg]
  | leave {arg : Str} {e : Exit} (h : optionOf arg = .leave e) (more : List Str) :
      Ends canOpen (arg :: more)
  | unopened {arg v : Str} (h : optionOf arg = .out) (hv : canOpen v = false)
      (more : List Str) : Ends canOpen (arg :: v :: more)

/-- `argv` is complete for tables of which `used` entries are taken. -/
def CompleteFrom (canOpen : Str → Bool) (capacity : Table → Nat) (num_interp : Nat)
    (used : Table → Nat) (argv : List Str) : Prop :=
  ∃ items rest, argv = items.flatten ++ rest ∧
    (∀ item ∈ items, IsItem canOpen num_interp item) ∧ Ends canOpen rest ∧
    ∀ t, used t + uses t items ≤ capacity t

/-- **The condition on an argument array.** -/
def OptionsComplete (canOpen : Str → Bool) (argv : List Str) : Prop :=
  argv.length = 1 ∨
    ∃ units, argv.tail = units.flatten ∧ (∀ unit ∈ units, IsSearchUnit unit) ∧
      CompleteFrom canOpen (Table.capacity argv.length (speakersFrom 1 units))
        (speakersFrom 1 units) (fun _ => 0) argv

/-- The condition on the arguments of a configuration file. -/
def WordsFit (words : List Str) : Prop :=
  words.length ≤ maxNumOfArguments ∧ ∀ word ∈ words, (c_str word).length < maxStrLen

instance (words : List Str) : Decidable (WordsFit words) := inferInstanceAs (Decidable (_ ∧ _))

-- ---------------------------------------------------------------------------
-- The search for the number of speakers
-- ---------------------------------------------------------------------------

/-- With one argument left the search ends. -/
theorem searchInterp_stop (argv : List Str) (n : Nat) : searchInterp 1 argv n = .done n := by
  rw [searchInterp.eq_def]
  simp

/-- Any other argument is stepped over. -/
theorem searchInterp_other {argc : Int} {arg : Str} {argv : List Str} {n : Nat}
    (hargc : argc - 1 ≠ 0) (harg : isInterp arg = false) :
    searchInterp argc (arg :: argv) n = searchInterp (argc - 1) argv n := by
  rw [searchInterp.eq_def, if_neg hargc]
  simp [harg]

/-- `-i` takes the next argument for the number of speakers. -/
theorem searchInterp_interp {argc : Int} {arg v : Str} {argv : List Str} {n : Nat}
    (hargc : argc - 1 ≠ 0) (harg : isInterp arg = true) :
    searchInterp argc (arg :: v :: argv) n
      = searchInterp (argc - 1 - 1) argv (max 1 (atoi v)).toNat := by
  rw [searchInterp.eq_def, if_neg hargc]
  simp [harg]

/-- A list that is cut into units is searched to its end. -/
theorem searchInterp_flatten (units : List (List Str)) (hunits : ∀ unit ∈ units, IsSearchUnit unit)
    (n : Nat) :
    searchInterp (units.flatten.length + 1) units.flatten n = .done (speakersFrom n units) := by
  induction units generalizing n with
  | nil => exact searchInterp_stop [] n
  | cons unit units ih =>
    have hunit := hunits unit (by simp)
    have hrest := ih fun u hu => hunits u (by simp [hu])
    -- a unit is one argument or two; the counter drops by as many
    match unit, hunit with
    | [arg], harg =>
      show searchInterp (((arg :: units.flatten).length : Int) + 1) (arg :: units.flatten) n = _
      have hargc : ((arg :: units.flatten).length : Int) + 1 - 1 = units.flatten.length + 1 := by
        simp
      rw [searchInterp_other (by omega) harg, hargc]
      exact hrest n
    | [arg, v], harg =>
      show searchInterp (((arg :: v :: units.flatten).length : Int) + 1)
        (arg :: v :: units.flatten) n = _
      have hargc : ((arg :: v :: units.flatten).length : Int) + 1 - 1 - 1
          = units.flatten.length + 1 := by
        simp only [List.length_cons]
        omega
      rw [searchInterp_interp (by omega) harg, hargc]
      exact hrest _

/-- A list without `-i` is searched one argument at a time. -/
theorem searchUnits_plain (args : List Str) (hargs : ∀ arg ∈ args, isInterp arg = false) (n : Nat) :
    (∀ unit ∈ args.map ([·]), IsSearchUnit unit) ∧ speakersFrom n (args.map ([·])) = n := by
  refine ⟨by simpa [IsSearchUnit] using hargs, ?_⟩
  rw [speakersFrom, List.foldl_map]
  exact List.foldl_fixed args

/-- A search that stays in bounds has cut the list into units. -/
theorem searchInterp_units {argc : Int} {argv : List Str} {n : Nat}
    (hargc : argc = argv.length + 1) (hne : searchInterp argc argv n ≠ .outOfBounds) :
    ∃ units : List (List Str), argv = units.flatten ∧ ∀ unit ∈ units, IsSearchUnit unit := by
  induction hlen : argv.length using Nat.strong_induction_on generalizing argc argv n with
  | _ m ih =>
  subst hlen
  match argv with
  | [] => exact ⟨[], rfl, by simp⟩
  | arg :: argv =>
    have hgo : argc - 1 ≠ 0 := by
      simp only [List.length_cons] at hargc
      omega
    cases harg : isInterp arg with
    | false =>
      -- an argument by itself
      rw [searchInterp_other hgo harg] at hne
      obtain ⟨units, rfl, hunits⟩ := ih argv.length (by simp) (by simp at hargc; omega) hne rfl
      exact ⟨[arg] :: units, rfl, List.forall_mem_cons.mpr ⟨harg, hunits⟩⟩
    | true =>
      match argv with
      | [] =>
        -- the number would be read from beyond the end
        rw [searchInterp.eq_def, if_neg hgo] at hne
        simp [harg] at hne
      | v :: argv =>
        -- `-i` and its number
        rw [searchInterp_interp hgo harg] at hne
        have hlt : argv.length < (arg :: v :: argv).length := by
          rw [List.length_cons, List.length_cons]
          omega
        obtain ⟨units, rfl, hunits⟩ := ih argv.length hlt (by simp at hargc; omega) hne rfl
        exact ⟨[arg, v] :: units, rfl, List.forall_mem_cons.mpr ⟨harg, hunits⟩⟩

/-- `GetNumInterp` stays in bounds exactly on a list that its search can cut,
and then returns what the cut says. -/
theorem GetNumInterp_inBounds_iff {argv : List Str} (hne : argv ≠ []) :
    GetNumInterp argv ≠ .outOfBounds ↔
      ∃ units, argv.tail = units.flatten ∧ (∀ unit ∈ units, IsSearchUnit unit) ∧
        GetNumInterp argv = .done (speakersFrom 1 units) := by
  have hargc : (argv.length : Int) = argv.tail.length + 1 := by
    have hpos : 0 < argv.length := List.length_pos_iff.mpr hne
    rw [List.length_tail]
    omega
  refine ⟨?_, ?_⟩
  · intro hbounds
    obtain ⟨units, hflat, hunits⟩ := searchInterp_units hargc hbounds
    refine ⟨units, hflat, hunits, ?_⟩
    rw [GetNumInterp, hargc, hflat]
    exact searchInterp_flatten units hunits 1
  · rintro ⟨units, -, -, hdone⟩
    rw [hdone]
    simp

-- ---------------------------------------------------------------------------
-- The scan of the options
-- ---------------------------------------------------------------------------

section Complete

variable {canOpen : Str → Bool} {capacity : Table → Nat} {num_interp : Nat}

/-- An option is one argument at least. -/
theorem IsItem.length_pos {item : List Str} (hitem : IsItem canOpen num_interp item) :
    0 < item.length := by
  cases item with
  | nil => exact absurd hitem id
  | cons => exact Nat.succ_pos _

/-- The end of the options is an argument. -/
theorem Ends.ne_nil {rest : List Str} (h : Ends canOpen rest) : rest ≠ [] := by
  cases h <;> simp

/-- A list is complete at its end, or up to its first option. -/
theorem completeFrom_iff {used : Table → Nat} {argv : List Str} :
    CompleteFrom canOpen capacity num_interp used argv ↔
      (Ends canOpen argv ∧ ∀ t, used t ≤ capacity t) ∨
        ∃ item rest, argv = item ++ rest ∧ IsItem canOpen num_interp item ∧
          CompleteFrom canOpen capacity num_interp (fun t => used t + uses t [item]) rest := by
  refine ⟨?_, ?_⟩
  · rintro ⟨items, rest, rfl, hitems, hrest, huses⟩
    cases items with
    | nil =>
      left
      exact ⟨hrest, huses⟩
    | cons item items =>
      right
      refine ⟨item, items.flatten ++ rest, by simp, hitems item (by simp), items, rest, rfl,
        fun i hi => hitems i (by simp [hi]), hrest, ?_⟩
      intro t
      have ht := huses t
      simp only [uses, List.countP_cons, List.countP_nil] at ht ⊢
      omega
  -- either the options end here or there is one more in front
  · rintro (⟨hend, hused⟩ | ⟨item, rest, rfl, hitem, items, last, rfl, hitems, hlast, huses⟩)
    · exact ⟨[], argv, rfl, by simp, hend, hused⟩
    · refine ⟨item :: items, last, by simp, ?_, hlast, ?_⟩
      · intro i hi
        rcases List.mem_cons.mp hi with rfl | hi
        · exact hitem
        · exact hitems i hi
      · intro t
        have ht := huses t
        simp only [uses, List.countP_cons, List.countP_nil] at ht ⊢
        omega

/-- No option that the scan gets past is one it ends with, unless it is the
last argument. -/
theorem not_ends_of_isItem {item rest : List Str} (hitem : IsItem canOpen num_interp item)
    (hlen : 2 ≤ (item ++ rest).length) : ¬ Ends canOpen (item ++ rest) := by
  intro hend
  cases item with
  | nil => exact hitem
  | cons arg values =>
    obtain ⟨harity, hopen⟩ := hitem
    generalize hargv : arg :: values ++ rest = argv at hend hlen
    cases hend with
    | last arg' => simp at hlen
    | leave h more =>
      -- an option that leaves takes no arguments, so it is no item
      obtain ⟨rfl, -⟩ := List.cons.inj hargv
      rw [h] at harity
      simp [Opt.arity] at harity
    | @unopened arg' v h hv more =>
      obtain ⟨rfl, hmore⟩ := List.cons.inj hargv
      rw [h] at harity
      -- its one value is the file that does not open
      obtain ⟨w, rfl⟩ := List.length_eq_one_iff.mp (Option.some.inj harity).symm
      obtain ⟨rfl, -⟩ := List.cons.inj hmore
      have := hopen h w (by simp)
      simp [hv] at this

/-- The first argument says how long the first option is. -/
theorem isItem_unique {item item' rest rest' : List Str}
    (hitem : IsItem canOpen num_interp item) (hitem' : IsItem canOpen num_interp item')
    (h : item ++ rest = item' ++ rest') : item = item' ∧ rest = rest' := by
  cases item with
  | nil => exact absurd hitem id
  | cons arg values =>
    cases item' with
    | nil => exact absurd hitem' id
    | cons arg' values' =>
      obtain ⟨rfl, -⟩ := List.cons.inj h
      have hlen : values.length = values'.length :=
        Option.some.inj (hitem.1.symm.trans hitem'.1)
      exact List.append_inj h (by simp [hlen])

/-- **Past a complete option** a list is complete when the rest of it is. -/
theorem completeFrom_item {used : Table → Nat} {item rest : List Str}
    (hitem : IsItem canOpen num_interp item) (hlen : 2 ≤ (item ++ rest).length) :
    CompleteFrom canOpen capacity num_interp used (item ++ rest) ↔
      CompleteFrom canOpen capacity num_interp (fun t => used t + uses t [item]) rest := by
  rw [completeFrom_iff]
  refine ⟨?_, ?_⟩
  · rintro (⟨hend, -⟩ | ⟨item', rest', happ, hitem', hrest⟩)
    · exact absurd hend (not_ends_of_isItem hitem hlen)
    · obtain ⟨rfl, rfl⟩ := isItem_unique hitem hitem' happ
      exact hrest
  · intro hrest
    exact Or.inr ⟨item, rest, rfl, hitem, hrest⟩

/-- The room in a table bounds the entries that are still to come. -/
theorem CompleteFrom.used_le {used : Table → Nat} {argv : List Str}
    (h : CompleteFrom canOpen capacity num_interp used argv) (t : Table) :
    used t ≤ capacity t := by
  obtain ⟨items, rest, -, -, -, huses⟩ := h
  have := huses t
  omega

/-- No option touches the tables but those that name one. -/
def Opt.KeepsTables : Opt → Prop
  | .flag set => ∀ o, (set o).fn = o.fn
  | .value set => ∀ v o, (set v o).fn = o.fn
  | _ => True

/-- Only the options for files write into a table. -/
theorem optionOf_keepsTables (arg : Str) : (optionOf arg).KeepsTables := by
  unfold optionOf
  split
  · -- one branch for each letter, and in some of them one for each second letter
    split <;> (try split) <;> simp [Opt.KeepsTables]
  · trivial

/-- What an option does to the variables of the scan. -/
def applyItem (o : Options) : List Str → Options
  | [] => o
  | arg :: values => match optionOf arg with
    | .label => { o with labfn := some arg }
    | .flag set => set o
    | .value set => set (values.headD []) o
    | .file t => o.store t (values.headD [])
    | .interp => { o with rate_interp := values.tail.map atof }
    | .out | .leave _ => o

/-- The entries that an option gives to a table. -/
def valuesFor (t : Table) (item : List Str) : List Str :=
  if (optionOf (item.headD [])).table = some t then item.tail else []

/-- **One turn of the scan takes one complete option.** -/
theorem readOptions_item {item rest : List Str} {o : Options}
    (hitem : IsItem canOpen num_interp item) (hlen : 2 ≤ (item ++ rest).length)
    (hroom : ∀ t, (o.fn t).length + (valuesFor t item).length ≤ capacity t) :
    readOptions canOpen capacity num_interp (item ++ rest).length (item ++ rest) o
      = readOptions canOpen capacity num_interp rest.length rest (applyItem o item) := by
  obtain ⟨arg, values, rfl⟩ := List.exists_cons_of_length_pos hitem.length_pos
  obtain ⟨harity, hopen⟩ := hitem
  have hgo : ((arg :: values ++ rest).length : Int) - 1 ≠ 0 := by omega
  rw [readOptions.eq_def, if_neg hgo, applyItem]
  -- the counter after an option without a value, and after one with a value
  have hnone : ((arg :: rest).length : Int) - 1 = rest.length := by simp
  have hone : ∀ v, ((arg :: v :: rest).length : Int) - 1 - 1 = rest.length := by
    intro v
    simp only [List.length_cons]
    omega
  cases hopt : optionOf arg with
  | label =>
    rw [hopt] at harity
    obtain rfl := List.length_eq_zero_iff.mp (Option.some.inj harity).symm
    simp only [List.cons_append, List.nil_append, hopt, hnone]
  | flag set =>
    rw [hopt] at harity
    obtain rfl := List.length_eq_zero_iff.mp (Option.some.inj harity).symm
    simp only [List.cons_append, List.nil_append, hopt, hnone]
  | value set =>
    rw [hopt] at harity
    obtain ⟨v, rfl⟩ := List.length_eq_one_iff.mp (Option.some.inj harity).symm
    simp only [List.cons_append, List.nil_append, hopt, hone, List.headD_cons]
  | file t =>
    rw [hopt] at harity
    obtain ⟨v, rfl⟩ := List.length_eq_one_iff.mp (Option.some.inj harity).symm
    have hfree : (o.fn t).length < capacity t := by
      have ht := hroom t
      rw [valuesFor, List.headD_cons, hopt, if_pos (by rfl)] at ht
      exact Nat.lt_of_succ_le ht
    simp only [List.cons_append, List.nil_append, hopt, hone, List.headD_cons, if_pos hfree]
  | out =>
    rw [hopt] at harity
    obtain ⟨v, rfl⟩ := List.length_eq_one_iff.mp (Option.some.inj harity).symm
    have hv : canOpen v = true := hopen hopt v List.mem_cons_self
    simp only [List.cons_append, List.nil_append, hopt, hone, if_pos hv]
  | interp =>
    rw [hopt] at harity
    have hvalues : num_interp + 1 = values.length := Option.some.inj harity
    obtain ⟨v, rates, rfl⟩ := List.exists_cons_of_length_pos (l := values) (by omega)
    rw [List.length_cons, Nat.add_right_cancel_iff] at hvalues
    have hfits : num_interp ≤ (rates ++ rest).length := by
      rw [List.length_append]
      omega
    have hargc : ((arg :: v :: (rates ++ rest)).length : Int) - 1 - 1 - num_interp
        = rest.length := by
      simp only [List.length_cons, List.length_append]
      omega
    simp only [List.cons_append, hopt, List.tail_cons, if_pos hfits, hargc,
      List.drop_left' hvalues.symm, List.take_left' hvalues.symm]
  | leave e =>
    rw [hopt] at harity
    cases harity

/-- A file option appends its file to its table. -/
theorem fn_applyItem {item : List Str} (hitem : IsItem canOpen num_interp item) (o : Options)
    (t : Table) : (applyItem o item).fn t = o.fn t ++ valuesFor t item := by
  cases item with
  | nil => exact absurd hitem id
  | cons arg values =>
    obtain ⟨harity, -⟩ := hitem
    have hkeeps := optionOf_keepsTables arg
    rw [applyItem, valuesFor, List.headD_cons]
    cases hopt : optionOf arg with
    | file t' =>
      rw [hopt] at harity
      obtain ⟨v, rfl⟩ := List.length_eq_one_iff.mp (Option.some.inj harity).symm
      by_cases ht : t' = t
      · subst ht
        simp [Options.store, Opt.table]
      · simp [Options.store, Opt.table, ht, Function.update_of_ne (Ne.symm ht)]
    | flag set =>
      rw [hopt] at hkeeps
      simp [Opt.table, hkeeps o]
    | value set =>
      rw [hopt] at hkeeps
      have hset := congrFun (hkeeps (values.headD []) o) t
      simpa [Opt.table] using hset
    | label => simp [Opt.table]
    | out => simp [Opt.table]
    | interp => simp [Opt.table]
    | leave e => simp [Opt.table]

/-- An option uses one place of its table at most. -/
theorem length_valuesFor {item : List Str} (hitem : IsItem canOpen num_interp item) (t : Table) :
    (valuesFor t item).length = uses t [item] := by
  obtain ⟨arg, values, rfl⟩ := List.exists_cons_of_length_pos hitem.length_pos
  have harity := hitem.1
  have huses : uses t [arg :: values] = if (optionOf arg).table = some t then 1 else 0 := by
    simp [uses, List.countP_cons]
  rw [huses, valuesFor, List.headD_cons]
  split
  · next htable =>
    -- an option of a table has one value
    cases hopt : optionOf arg with
    | file t' =>
      rw [hopt] at harity
      exact (Option.some.inj harity).symm
    | _ =>
      rw [hopt] at htable
      cases htable
  · rfl

/-- An option without a free entry in its table. -/
theorem readOptions_full {item rest : List Str} {o : Options} {t : Table}
    (hitem : IsItem canOpen num_interp item) (hlen : 2 ≤ (item ++ rest).length)
    (hroom : (o.fn t).length ≤ capacity t)
    (hfull : capacity t < (o.fn t).length + (valuesFor t item).length) :
    readOptions canOpen capacity num_interp (item ++ rest).length (item ++ rest) o
      = .outOfBounds := by
  obtain ⟨arg, values, rfl⟩ := List.exists_cons_of_length_pos hitem.length_pos
  have harity := hitem.1
  have hgo : ((arg :: values ++ rest).length : Int) - 1 ≠ 0 := by omega
  -- the option that does not fit is one for the full table
  have htable : (optionOf arg).table = some t := by
    by_contra hno
    rw [valuesFor, List.headD_cons, if_neg hno, List.length_nil] at hfull
    omega
  cases hopt : optionOf arg with
  | file t' =>
    rw [hopt] at htable harity
    obtain rfl := Option.some.inj htable
    obtain ⟨v, rfl⟩ := List.length_eq_one_iff.mp (Option.some.inj harity).symm
    have hfree : ¬ (o.fn t').length < capacity t' := by
      rw [valuesFor, List.headD_cons, hopt, if_pos (by rfl), List.tail_cons,
        List.length_singleton] at hfull
      omega
    rw [readOptions.eq_def, if_neg hgo]
    simp only [List.cons_append, List.nil_append, hopt, if_neg hfree]
  | _ =>
    rw [hopt] at htable
    cases htable

/-- **A turn that takes no complete option is the last one**: the process is left, or the
scan goes beyond the end. -/
theorem readOptions_no_item {arg v : Str} {rest : List Str} (o : Options)
    (hno : ¬ ∃ item rest', arg :: v :: rest = item ++ rest' ∧ IsItem canOpen num_interp item) :
    readOptions canOpen capacity num_interp (arg :: v :: rest).length (arg :: v :: rest) o
        ≠ .outOfBounds ↔
      Ends canOpen (arg :: v :: rest) := by
  have hgo : ((arg :: v :: rest).length : Int) - 1 ≠ 0 := by
    simp only [List.length_cons]
    omega
  have hone : (optionOf arg).arity num_interp = some 0 → False := fun harity =>
    hno ⟨[arg], v :: rest, rfl, harity, fun _ w hw => absurd hw List.not_mem_nil⟩
  have htwo : (optionOf arg).arity num_interp = some 1 →
      (optionOf arg = .out → canOpen v = true) → False := fun harity hopen =>
    hno ⟨[arg, v], rest, rfl, harity, fun hout w hw => List.mem_singleton.mp hw ▸ hopen hout⟩
  rw [readOptions, if_neg hgo]
  cases hopt : optionOf arg with
  | label => exact (hone (by rw [hopt]; rfl)).elim
  | flag set => exact (hone (by rw [hopt]; rfl)).elim
  | value set =>
    exact (htwo (by rw [hopt]; rfl) fun hout => Opt.noConfusion (hopt.symm.trans hout)).elim
  | file t =>
    exact (htwo (by rw [hopt]; rfl) fun hout => Opt.noConfusion (hopt.symm.trans hout)).elim
  | out =>
    have hclosed : canOpen v = false := by
      cases hopen : canOpen v with
      | false => rfl
      | true => exact (htwo (by rw [hopt]; rfl) fun _ => hopen).elim
    simp only [hclosed, Bool.false_eq_true, if_false]
    exact iff_of_true (by simp) (Ends.unopened hopt hclosed rest)
  | interp =>
    -- some rate would be read from beyond the end
    have hshort : ¬ num_interp ≤ (v :: rest).tail.length := by
      intro hrates
      rw [List.tail_cons] at hrates
      refine hno ⟨arg :: v :: rest.take num_interp, rest.drop num_interp, by simp, ?_, ?_⟩
      · rw [hopt, List.length_cons, List.length_take_of_le hrates]
        rfl
      · exact fun hout => Opt.noConfusion (hopt.symm.trans hout)
    simp only [if_neg hshort]
    refine iff_of_false (not_not_intro rfl) fun hend => ?_
    cases hend with
    | leave h => cases hopt.symm.trans h
    | unopened h => cases hopt.symm.trans h
  | leave e => exact iff_of_true (by simp) (Ends.leave hopt _)

/-- **The scan stays in bounds exactly on a complete list.** The counter equals
the number of arguments left; the induction is on that number. -/
theorem readOptions_inBounds_iff (argv : List Str) (o : Options)
    (hroom : ∀ t, (o.fn t).length ≤ capacity t) :
    readOptions canOpen capacity num_interp argv.length argv o ≠ .outOfBounds ↔
      CompleteFrom canOpen capacity num_interp (fun t => (o.fn t).length) argv := by
  induction hn : argv.length using Nat.strong_induction_on generalizing argv o with
  | _ m ih =>
  subst hn
  match argv with
  | [] =>
    -- the counter passes zero and the next turn reads beyond the end
    rw [readOptions]
    simp only [List.length_nil]
    refine iff_of_false (by simp) ?_
    rintro ⟨items, rest, hnil, -, hend, -⟩
    exact hend.ne_nil (List.append_eq_nil_iff.mp hnil.symm).2
  | [arg] =>
    -- one argument is left, and stays unread
    rw [readOptions]
    refine iff_of_true (by simp) ?_
    exact completeFrom_iff.mpr (Or.inl ⟨Ends.last arg, hroom⟩)
  | arg :: v :: rest =>
    by_cases hfront : ∃ item rest', arg :: v :: rest = item ++ rest' ∧
        IsItem canOpen num_interp item
    · obtain ⟨item, rest', happ, hitem⟩ := hfront
      have hlen : 2 ≤ (item ++ rest').length := by
        rw [← happ, List.length_cons, List.length_cons]
        omega
      have hused : ∀ t, ((applyItem o item).fn t).length = (o.fn t).length + uses t [item] := by
        intro t
        rw [fn_applyItem hitem, List.length_append, length_valuesFor hitem]
      rw [happ, completeFrom_item hitem hlen]
      by_cases hfree : ∀ t, (o.fn t).length + (valuesFor t item).length ≤ capacity t
      · -- the question is left to the rest of the list
        have hshort : rest'.length < (arg :: v :: rest).length := by
          have hpos := hitem.length_pos
          rw [happ, List.length_append]
          omega
        rw [readOptions_item hitem hlen hfree, ih _ hshort rest' (applyItem o item) ?_ rfl]
        · simp only [hused]
        · intro t
          rw [fn_applyItem hitem, List.length_append]
          exact hfree t
      · -- the entry after the last one of a table
        push Not at hfree
        obtain ⟨t, ht⟩ := hfree
        rw [readOptions_full hitem hlen (hroom t) ht]
        refine iff_of_false (not_not_intro rfl) fun hcomplete => ?_
        have hle := hcomplete.used_le t
        rw [← length_valuesFor hitem] at hle
        omega
    · rw [readOptions_no_item o hfront, completeFrom_iff]
      constructor
      · exact fun hend => .inl ⟨hend, hroom⟩
      · rintro (⟨hend, -⟩ | ⟨item, rest', happ, hitem, -⟩)
        · exact hend
        · exact absurd ⟨item, rest', happ, hitem⟩ hfront

/-- Options that are complete, but with nothing behind the value of the last
one, are not enough. -/
theorem not_completeFrom_flatten {items : List (List Str)} {item : List Str} {used : Table → Nat}
    (hitems : ∀ i ∈ items, IsItem canOpen num_interp i) (hitem : IsItem canOpen num_interp item)
    (hlen : 2 ≤ item.length) :
    ¬ CompleteFrom canOpen capacity num_interp used (items.flatten ++ item) := by
  induction items generalizing used with
  | nil =>
    intro h
    rw [List.flatten_nil, List.nil_append, ← List.append_nil item,
      completeFrom_item hitem (by simpa using hlen)] at h
    -- the scan would have to end in front of an argument, and there is none
    obtain ⟨items, rest, hnil, -, hend, -⟩ := h
    exact hend.ne_nil (List.append_eq_nil_iff.mp hnil.symm).2
  | cons i items ih =>
    intro h
    rw [List.flatten_cons, List.append_assoc,
      completeFrom_item (hitems i (by simp)) (by simp; omega)] at h
    exact ih (fun j hj => hitems j (by simp [hj])) h

end Complete

-- ---------------------------------------------------------------------------
-- The arguments of a configuration file
-- ---------------------------------------------------------------------------

/-- After a memory error nothing is read. -/
theorem storeArguments_outOfBounds (words : List (List Char)) :
    storeArguments .outOfBounds words = .outOfBounds := by
  induction words with
  | nil => rfl
  | cons word words ih => exact ih

/-- The words are stored in order, as long as there is room for them. -/
theorem storeArguments_done (words : List (List Char)) (argv : List Str)
    (hargv : argv.length ≤ maxNumOfArguments) :
    storeArguments (.done argv) words =
      if argv.length + words.length ≤ maxNumOfArguments ∧
          ∀ word ∈ words, (c_str word).length < maxStrLen then
        .done (argv ++ words.map c_str)
      else .outOfBounds := by
  induction words generalizing argv with
  | nil => simp [storeArguments, hargv]
  | cons word words ih =>
    show storeArguments (storeArgument argv word) words = _
    rw [storeArgument]
    by_cases hfit : argv.length < maxNumOfArguments ∧ (c_str word).length < maxStrLen
    · -- the word is stored, and the rest has one entry less
      rw [if_pos hfit, ih _ (by simp; omega)]
      have hlen : (argv ++ [c_str word]).length + words.length
          = argv.length + (word :: words).length := by simp; omega
      rw [hlen]
      simp [hfit.2]
    · -- too many words or too long a word: nothing after it mends that
      rw [if_neg hfit, storeArguments_outOfBounds, if_neg]
      rintro ⟨hlen, hall⟩
      rw [List.length_cons] at hlen
      exact hfit ⟨by omega, hall word (by simp)⟩

/-- **The arguments of a file** are written within the arrays exactly when there
are at most `maxNumOfArguments` of them, each shorter than `maxStrLen`. -/
theorem parseConfigFile_some (text : List Char) :
    parseConfigFile (some text) =
      if WordsFit (configWords text) then .done ((configWords text).map c_str)
      else .outOfBounds := by
  have hfold := storeArguments_done (configWords text) [] (by simp)
  rw [List.length_nil, Nat.zero_add, List.nil_append] at hfold
  exact hfold

-- ---------------------------------------------------------------------------
-- The loader
-- ---------------------------------------------------------------------------

/-- Reading a list stays in bounds exactly when the list is complete. -/
theorem load_inBounds_iff (canOpen : Str → Bool) (argv : List Str) :
    load canOpen argv ≠ .outOfBounds ↔ OptionsComplete canOpen argv := by
  rw [load]
  by_cases hone : argv.length = 1
  · rw [if_pos hone]
    exact iff_of_true (by simp) (Or.inl hone)
  rw [if_neg hone]
  cases argv with
  | nil =>
    -- with no argument at all the search already starts beyond the end
    have hsearch : GetNumInterp [] = .outOfBounds := by
      rw [GetNumInterp, searchInterp.eq_def]
      simp
    rw [hsearch]
    refine iff_of_false (by simp) ?_
    rintro (hlen | ⟨units, -, -, items, rest, hnil, -, hend, -⟩)
    · simp at hlen
    · exact hend.ne_nil (List.append_eq_nil_iff.mp hnil.symm).2
  | cons arg rest =>
    -- the scan starts on empty tables, and the counts are checked in bounds
    have hscan : ∀ n, (readOptions canOpen (Table.capacity (arg :: rest).length n) n
          (arg :: rest).length (arg :: rest) { rate_interp := List.replicate n 1 }).bind
            (fun o => if o.countsAgree n then .done (o.calls n) else .exited (wrongCounts n))
          ≠ .outOfBounds ↔
        CompleteFrom canOpen (Table.capacity (arg :: rest).length n) n (fun _ => 0)
          (arg :: rest) := by
      intro n
      rw [Outcome.bind_ne_outOfBounds]
      rw [readOptions_inBounds_iff (arg :: rest) _ (fun t => Nat.zero_le _)]
      refine and_iff_left ?_
      intro o _
      split <;> simp
    have hsearch := GetNumInterp_inBounds_iff (List.cons_ne_nil arg rest)
    refine ⟨?_, ?_⟩
    · intro hload
      rw [Outcome.bind_ne_outOfBounds] at hload
      obtain ⟨units, hflat, hunits, hdone⟩ := hsearch.mp hload.1
      exact Or.inr ⟨units, hflat, hunits, (hscan _).mp (hload.2 _ hdone)⟩
    · rintro (hlen | ⟨units, hflat, hunits, hcomplete⟩)
      · exact absurd hlen hone
      · have hdone : GetNumInterp (arg :: rest) = .done (speakersFrom 1 units) := by
          have hargc : ((arg :: rest).length : Int) = units.flatten.length + 1 := by
            rw [← hflat]
            simp
          rw [GetNumInterp, hargc, hflat]
          exact searchInterp_flatten units hunits 1
        rw [hdone, Outcome.bind_done]
        exact (hscan _).mpr hcomplete

/-- **Where a voice's options are read within bounds.** For every argument
array, and for every configuration file. -/
theorem reads_inBounds_iff (canOpen : Str → Bool) :
    (∀ argv, load canOpen argv ≠ .outOfBounds ↔ OptionsComplete canOpen argv) ∧
    (∀ text, parseConfigFile (some text) ≠ .outOfBounds ↔ WordsFit (configWords text)) ∧
    ∀ text, addEngine canOpen (some text) ≠ .outOfBounds ↔
      WordsFit (configWords text) ∧
        (configWords text = [] ∨ OptionsComplete canOpen ((configWords text).map c_str)) := by
  have hparse : ∀ text, parseConfigFile (some text) ≠ .outOfBounds ↔
      WordsFit (configWords text) := by
    intro text
    rw [parseConfigFile_some]
    split_ifs with hfit <;> simp [hfit]
  refine ⟨load_inBounds_iff canOpen, hparse, ?_⟩
  intro text
  rw [addEngine, Outcome.bind_ne_outOfBounds, hparse]
  refine and_congr_right fun hfit => ?_
  rw [parseConfigFile_some, if_pos hfit]
  cases hwords : configWords text with
  -- no arguments, no engine
  | nil => simp
  | cons word words =>
    have hload := load_inBounds_iff canOpen ((word :: words).map c_str)
    simp only [Outcome.done.injEq, forall_eq', List.length_map, List.length_cons,
      Nat.zero_lt_succ, if_true, reduceCtorEq, false_or]
    rw [Outcome.bind_ne_outOfBounds, hload]
    simp

/-- One option with its value and nothing behind it, as an array and as a
configuration file. -/
theorem load_value_last :
    load (fun _ => true) ["-s".toList, "48000".toList] = .outOfBounds ∧
      addEngine (fun _ => true) (some "-s 48000\n".toList) = .outOfBounds := by
  have hload : load (fun _ => true) ["-s".toList, "48000".toList] = .outOfBounds := by
    simp [load, GetNumInterp, searchInterp, readOptions, optionOf, isInterp, charAt]
  have hparse : parseConfigFile (some "-s 48000\n".toList)
      = .done ["-s".toList, "48000".toList] := by decide +kernel
  refine ⟨hload, ?_⟩
  rw [addEngine, hparse, Outcome.bind_done, if_pos (by decide), hload]
  rfl

end Vox.Mage

namespace Vox.SCMage

open Vox.Mage

-- ---------------------------------------------------------------------------
-- The voices of the unit generator
-- ---------------------------------------------------------------------------

/-- `mage_argv_strings` of `SCMage_addVoice`, less its last string. -/
def addVoiceOptions (voiceName : List Char) : List (List Str) :=
  let file (name : String) : Str :=
    "/home/we/vox/mage/data/cmu-arctic/voices/".toList ++ voiceName ++ name.toList
  [["-s".toList, "48000".toList],
    ["-p".toList, "240".toList],
    ["-a".toList, "0.55".toList],
    ["-td".toList, file "/tree-dur.inf"],
    ["-tm".toList, file "/tree-mgc.inf"],
    ["-tf".toList, file "/tree-lf0.inf"],
    ["-tl".toList, file "/tree-lpf.inf"],
    ["-md".toList, file "/dur.pdf"],
    ["-mm".toList, file "/mgc.pdf"],
    ["-mf".toList, file "/lf0.pdf"],
    ["-ml".toList, file "/lpf.pdf"],
    ["-dm".toList, file "/mgc.win1"],
    ["-dm".toList, file "/mgc.win2"],
    ["-dm".toList, file "/mgc.win3"],
    ["-df".toList, file "/lf0.win1"],
    ["-df".toList, file "/lf0.win2"],
    ["-df".toList, file "/lf0.win3"],
    ["-dl".toList, file "/lpf.win1"],
    ["-em".toList, file "/tree-gv-mgc.inf"],
    ["-ef".toList, file "/tree-gv-lf0.inf"],
    ["-cm".toList, file "/gv-mgc.pdf"],
    ["-cf".toList, file "/gv-lf0.pdf"],
    ["-k".toList, file "/gv-switch.inf"]]

/-- `mage_argv` of `SCMage_addVoice`: the last argument is empty. -/
def addVoiceArguments (voiceName : List Char) : List Str :=
  (addVoiceOptions voiceName).flatten ++ [[]]

/-- The options of a voice's directory are complete. -/
theorem isItem_addVoiceOptions (canOpen : Str → Bool) (num_interp : Nat) (voiceName : List Char) :
    ∀ item ∈ addVoiceOptions voiceName, IsItem canOpen num_interp item := by
  simp [addVoiceOptions, IsItem, optionOf, charAt, Opt.arity]

/-- **A voice of any name** is read within bounds. -/
theorem addVoice_complete (canOpen : Str → Bool) (voiceName : List Char) :
    OptionsComplete canOpen (addVoiceArguments voiceName) := by
  -- no argument is `-i`, so the search takes them one by one
  have hplain : ∀ arg ∈ addVoiceArguments voiceName, isInterp arg = false := by
    simp [addVoiceArguments, addVoiceOptions, isInterp, charAt]
  obtain ⟨hunits, hspeakers⟩ := searchUnits_plain (addVoiceArguments voiceName).tail
    (fun arg harg => hplain arg (List.mem_of_mem_tail harg)) 1
  refine Or.inr ⟨_, (List.flatMap_singleton' _).symm, hunits, ?_⟩
  rw [hspeakers]
  refine ⟨addVoiceOptions voiceName, [[]], rfl, isItem_addVoiceOptions canOpen 1 voiceName,
    Ends.last [], ?_⟩
  -- the tables are sized for one speaker, and only windows are given more than once
  have htables : (addVoiceOptions voiceName).map (fun item => (optionOf (item.headD [])).table)
      = [none, none, none, some .ts_dur, some .ts_mgc, some .ts_lf0, some .ts_lpf,
        some .ms_dur, some .ms_mgc, some .ms_lf0, some .ms_lpf,
        some .ws_mgc, some .ws_mgc, some .ws_mgc, some .ws_lf0, some .ws_lf0, some .ws_lf0,
        some .ws_lpf, some .ts_gvm, some .ts_gvl, some .ms_gvm, some .ms_gvl, none] := rfl
  intro t
  have huses : uses t (addVoiceOptions voiceName)
      = ((addVoiceOptions voiceName).map fun item =>
          (optionOf (item.headD [])).table).count (some t) := by
    rw [uses, List.count, List.countP_map]
    rfl
  rw [huses, htables]
  show 0 + _ ≤ Table.capacity 47 1 t
  cases t <;> decide

/-- Without its empty argument the list of every voice is read beyond its end. -/
theorem addVoice_without_trailing (canOpen : Str → Bool) (voiceName : List Char) :
    ¬ OptionsComplete canOpen (addVoiceOptions voiceName).flatten := by
  rintro (hlen | ⟨units, -, -, hcomplete⟩)
  · simp [addVoiceOptions] at hlen
  · have hitems := isItem_addVoiceOptions canOpen (speakersFrom 1 units) voiceName
    have hne : addVoiceOptions voiceName ≠ [] := by simp [addVoiceOptions]
    have hsplit := List.dropLast_concat_getLast hne
    rw [← hsplit, List.flatten_concat] at hcomplete
    refine not_completeFrom_flatten (fun i hi => hitems i (List.mem_of_mem_dropLast hi))
      (hitems _ (List.getLast_mem hne)) ?_ hcomplete
    simp [addVoiceOptions]

end Vox.SCMage
