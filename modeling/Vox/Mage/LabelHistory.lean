import Mathlib.Data.List.GetD
import Vox.Mage.Label

/-!
# MAGE — labels parsed after other labels

The three tokens of `Label::parseQuery` are static, and a line with fewer than two spaces
leaves the later ones as an earlier line left them. What a label is read back as is a
function of its three tokens (`parseQuery_eq`): of their C strings, and of where they run
into the next array.

* `sameAsFirst_iff` — when a line is parsed as if it were the first one.
* `roundTrips_iff` — when a query is read back, on its own and after a begin and an end.
-/

namespace Vox.Mage

open Lib

-- ---------------------------------------------------------------------------
-- C strings
-- ---------------------------------------------------------------------------

/-- What a scan for a character passes over. -/
theorem bne_of_not_mem {stop : Char} {s : List Char} (h : stop ∉ s) :
    ∀ c ∈ s, (c != stop) = true := by
  intro c hc
  rw [bne_iff_ne]
  rintro rfl
  exact h hc

/-- A text without an end of string is a string as it stands. -/
theorem c_str_of_nul_not_mem {s : List Char} (h : '\x00' ∉ s) : c_str s = s :=
  List.takeWhile_eq_self_iff.mpr (bne_of_not_mem h)

/-- A string ends before the first end of string. -/
theorem nul_not_mem_c_str (s : List Char) : '\x00' ∉ c_str s := by
  intro h
  have := List.mem_takeWhile_imp h
  simp at this

/-- What is behind the end of string is not read. -/
theorem c_str_append_nul {text : List Char} (h : '\x00' ∉ text) (rest : List Char) :
    c_str (text ++ '\x00' :: rest) = text := by
  have hself := c_str_of_nul_not_mem h
  rw [c_str] at hself ⊢
  rw [List.takeWhile_append, hself]
  simp

/-- A string that is in the memory. -/
theorem stringAt_eq {mem : LabelMemory} {src : Nat} {text : List Char} (hnul : '\x00' ∉ text)
    (hcells : ∀ i (h : i < text.length), mem (src + i) = text[i])
    (hend : mem (src + text.length) = '\x00') (hfits : src + text.length < LabelMemory.size) :
    stringAt mem src = text := by
  obtain ⟨n, hn⟩ : ∃ n, LabelMemory.size - src = text.length + (n + 1) :=
    ⟨LabelMemory.size - src - text.length - 1, by omega⟩
  have hhead : (List.range' src text.length).map mem = text := by
    refine List.ext_getElem (by simp) fun i _ hi => ?_
    rw [List.getElem_map, List.getElem_range', one_mul, hcells i hi]
  rw [stringAt, hn, ← List.range'_append_1, List.map_append, hhead, List.range'_succ,
    List.map_cons, hend]
  exact c_str_append_nul hnul _

/-- Memory with a C string written to it. -/
def written (mem : LabelMemory) (dst : Nat) (text : List Char) : LabelMemory := fun i =>
  if dst ≤ i ∧ i ≤ dst + text.length then text.getD (i - dst) '\x00' else mem i

/-- A copy stays within the three arrays or leaves them. -/
theorem strcpy_eq (mem : LabelMemory) (dst : Nat) (src : List Char) :
    strcpy mem dst src
      = if dst + (c_str src).length < LabelMemory.size then some (written mem dst (c_str src))
        else none := rfl

section Written

variable (mem : LabelMemory) (dst : Nat) (text : List Char)

theorem written_inside {i : Nat} (h : i < text.length) :
    written mem dst text (dst + i) = text[i] := by
  rw [written, if_pos (by omega), Nat.add_sub_cancel_left, List.getD_eq_getElem _ _ h]

theorem written_end : written mem dst text (dst + text.length) = '\x00' := by
  rw [written, if_pos (by omega), Nat.add_sub_cancel_left]
  exact List.getD_eq_default _ _ (Nat.le_refl _)

theorem written_outside {i : Nat} (h : i < dst ∨ dst + text.length < i) :
    written mem dst text i = mem i := if_neg (by omega)

end Written

-- ---------------------------------------------------------------------------
-- A label from its tokens
-- ---------------------------------------------------------------------------

namespace Statics

variable (p : Statics)

/-- The copies stay in the object. -/
def Fits : Prop :=
  (c_str p.first).length < 2 * maxStrLen ∧ (c_str p.middle).length < maxStrLen ∧
    (c_str p.last).length < 3 * maxStrLen

instance : Decidable p.Fits := inferInstanceAs (Decidable (_ ∧ _ ∧ _))

/-- What is in `strBegin`: a first token that runs on is cut off by the second one, and a
third token that runs on is what is there. -/
def beginText : List Char :=
  if (c_str p.last).length < maxStrLen then
    if (c_str p.first).length < maxStrLen then c_str p.first
    else (c_str p.first).take maxStrLen ++ c_str p.middle
  else (c_str p.last).drop maxStrLen

/-- What is in `strEnd`. -/
def endText : List Char :=
  if (c_str p.last).length < 2 * maxStrLen then c_str p.middle
  else (c_str p.last).drop (2 * maxStrLen)

/-- The line has frame information. -/
def Numbered : Prop := isdigit_string p.beginText = true ∧ isdigit_string p.endText = true

instance : Decidable p.Numbered := inferInstanceAs (Decidable (_ ∧ _))

/-- The label that is read back. -/
def label : Label :=
  if p.Numbered then
    { query := c_str p.last
      isDurationForcedFlag := true
      speed := 1
      begin_ := truncate (atof p.beginText)
      end_ := truncate (atof p.endText) }
  else { query := p.beginText, isDurationForcedFlag := false, speed := 1, begin_ := -1, end_ := -1 }

end Statics

section Memory

variable (f m l : List Char)

/-- The object after the three copies. -/
def labelMemory : LabelMemory :=
  written (written (written (fun _ => '\x00') LabelMemory.strBegin f) LabelMemory.strEnd m)
    LabelMemory.strQuery l

variable {f m l} (hf : '\x00' ∉ f) (hm : '\x00' ∉ m) (hl : '\x00' ∉ l)

include hl in
/-- The query is copied last, so it is read back whole. -/
theorem stringAt_strQuery (hlength : l.length < 3 * maxStrLen) :
    stringAt (labelMemory f m l) LabelMemory.strQuery = l :=
  stringAt_eq hl (fun _ h => written_inside _ _ _ h) (written_end _ _ _)
    (by unfold LabelMemory.strQuery LabelMemory.size; omega)

include hl in
/-- The third token runs over the other arrays: what is read there is the rest of it. -/
theorem stringAt_overrun (f m : List Char) {k : Nat} (hk : k ≤ l.length)
    (hlength : l.length < 3 * maxStrLen) :
    stringAt (labelMemory f m l) k = l.drop k := by
  have hquery : LabelMemory.strQuery = 0 := rfl
  refine stringAt_eq (fun h => hl (List.mem_of_mem_drop h)) (fun i hi => ?_) ?_ ?_
  · rw [List.length_drop] at hi
    have hcell := written_inside (written (written (fun _ => '\x00') LabelMemory.strBegin f)
      LabelMemory.strEnd m) 0 l (i := k + i) (by omega)
    rw [Nat.zero_add] at hcell
    rw [labelMemory, hquery, hcell, List.getElem_drop]
  · have hend := written_end (written (written (fun _ => '\x00') LabelMemory.strBegin f)
      LabelMemory.strEnd m) 0 l
    rw [Nat.zero_add] at hend
    rw [List.length_drop, Nat.add_sub_cancel' hk]
    exact hend
  · rw [List.length_drop]
    unfold LabelMemory.size
    omega

include hm hl in
/-- A long query runs over `strEnd`, which lies two arrays behind it. -/
theorem stringAt_strEnd (hm' : m.length < maxStrLen) (hl' : l.length < 3 * maxStrLen) :
    stringAt (labelMemory f m l) LabelMemory.strEnd
      = if l.length < 2 * maxStrLen then m else l.drop (2 * maxStrLen) := by
  have hpos : 0 < maxStrLen := by decide
  split
  · next hshort =>
    -- the third copy ends before
    unfold labelMemory LabelMemory.strEnd LabelMemory.strQuery
    refine stringAt_eq hm (fun i hi => ?_) ?_ (by unfold LabelMemory.size; omega)
    · rw [written_outside _ _ _ (by omega)]
      exact written_inside _ _ _ hi
    · rw [written_outside _ _ _ (by omega)]
      exact written_end _ _ _
  · next hlong =>
    exact stringAt_overrun hl f m (Nat.le_of_not_lt hlong) hl'

include hf hm hl in
/-- A long query runs over `strBegin`; a long first token runs on into `strEnd`. -/
theorem stringAt_strBegin (hf' : f.length < 2 * maxStrLen) (hm' : m.length < maxStrLen)
    (hl' : l.length < 3 * maxStrLen) :
    stringAt (labelMemory f m l) LabelMemory.strBegin
      = if l.length < maxStrLen then
          if f.length < maxStrLen then f else f.take maxStrLen ++ m
        else l.drop maxStrLen := by
  have hpos : 0 < maxStrLen := by decide
  split
  · next hshort =>
    unfold labelMemory LabelMemory.strBegin LabelMemory.strEnd LabelMemory.strQuery
    split
    · next hfirst =>
      -- neither of the later copies reaches the array
      refine stringAt_eq hf (fun i hi => ?_) ?_ (by unfold LabelMemory.size; omega)
      · rw [written_outside _ _ _ (by omega), written_outside _ _ _ (by omega)]
        exact written_inside _ _ _ hi
      · rw [written_outside _ _ _ (by omega), written_outside _ _ _ (by omega)]
        exact written_end _ _ _
    · next hfirst =>
      have htake : (f.take maxStrLen).length = maxStrLen := by
        rw [List.length_take]
        omega
      refine stringAt_eq ?_ (fun i hi => ?_) ?_ ?_
      · intro h
        rcases List.mem_append.mp h with h | h
        · exact hf (List.mem_of_mem_take h)
        · exact hm h
      · rw [List.length_append, htake] at hi
        rw [written_outside _ _ _ (by omega)]
        by_cases hin : i < maxStrLen
        · rw [written_outside _ _ _ (by omega), written_inside _ _ _ (by omega),
            List.getElem_append_left (by omega), List.getElem_take]
        · -- the second token follows
          obtain ⟨k, rfl⟩ : ∃ k, i = maxStrLen + k := ⟨i - maxStrLen, by omega⟩
          rw [show maxStrLen + (maxStrLen + k) = 2 * maxStrLen + k by omega,
            written_inside _ _ _ (by omega), List.getElem_append_right (by omega)]
          congr 1
          omega
      · rw [List.length_append, htake, written_outside _ _ _ (by omega),
          show maxStrLen + (maxStrLen + m.length) = 2 * maxStrLen + m.length by omega]
        exact written_end _ _ _
      · rw [List.length_append, htake]
        unfold LabelMemory.size
        omega
  · next hlong =>
    exact stringAt_overrun hl f m (Nat.le_of_not_lt hlong) hl'

end Memory

namespace Label

/-- **A label is a function of its tokens**, as far as they fit the object. -/
theorem parseQuery_eq (st : Statics) (q : List Char) :
    parseQuery st q
      = if (splitQuery st q).Fits then some ((splitQuery st q).label, splitQuery st q)
        else none := by
  have hbegin : LabelMemory.strBegin = maxStrLen := rfl
  have hend : LabelMemory.strEnd = 2 * maxStrLen := rfl
  have hquery : LabelMemory.strQuery = 0 := rfl
  have hsize : LabelMemory.size = 3 * maxStrLen := rfl
  have hfirst : LabelMemory.strBegin + (c_str (splitQuery st q).first).length < LabelMemory.size ↔
      (c_str (splitQuery st q).first).length < 2 * maxStrLen := by omega
  have hmiddle : LabelMemory.strEnd + (c_str (splitQuery st q).middle).length < LabelMemory.size ↔
      (c_str (splitQuery st q).middle).length < maxStrLen := by omega
  have hlast : LabelMemory.strQuery + (c_str (splitQuery st q).last).length < LabelMemory.size ↔
      (c_str (splitQuery st q).last).length < 3 * maxStrLen := by omega
  rw [parseQuery]
  simp only [strcpy_eq, Option.bind_eq_bind, hfirst, hmiddle, hlast]
  by_cases hfits : (splitQuery st q).Fits
  · obtain ⟨hf, hm, hl⟩ := hfits
    have hall : (splitQuery st q).Fits := ⟨hf, hm, hl⟩
    simp only [if_pos hf, if_pos hm, if_pos hl, if_pos hall, Option.bind_some]
    have hnul := nul_not_mem_c_str
    have hbeginText : stringAt (labelMemory (c_str (splitQuery st q).first)
        (c_str (splitQuery st q).middle) (c_str (splitQuery st q).last)) LabelMemory.strBegin
          = (splitQuery st q).beginText :=
      stringAt_strBegin (hnul _) (hnul _) (hnul _) hf hm hl
    have hendText : stringAt (labelMemory (c_str (splitQuery st q).first)
        (c_str (splitQuery st q).middle) (c_str (splitQuery st q).last)) LabelMemory.strEnd
          = (splitQuery st q).endText :=
      stringAt_strEnd (hnul _) (hnul _) hm hl
    have hqueryText := stringAt_strQuery (f := c_str (splitQuery st q).first)
      (m := c_str (splitQuery st q).middle) (hnul (splitQuery st q).last) hl
    rw [labelMemory] at hbeginText hendText hqueryText
    rw [hbeginText, hendText, hqueryText, Statics.label]
    by_cases hnumbered : (splitQuery st q).Numbered
    · rw [if_pos hnumbered, if_pos (Bool.and_eq_true_iff.mpr hnumbered)]
    · rw [if_neg hnumbered, if_neg fun h => hnumbered (Bool.and_eq_true_iff.mp h)]
  · rw [if_neg hfits]
    -- the first copy that leaves the object
    by_cases hf : (c_str (splitQuery st q).first).length < 2 * maxStrLen
    · by_cases hm : (c_str (splitQuery st q).middle).length < maxStrLen
      · have hl : ¬ (c_str (splitQuery st q).last).length < 3 * maxStrLen :=
          fun hl => hfits ⟨hf, hm, hl⟩
        simp only [if_pos hf, if_pos hm, if_neg hl, Option.bind_some, Option.bind_none]
      · simp only [if_pos hf, if_neg hm, Option.bind_some, Option.bind_none]
    · simp only [if_neg hf, Option.bind_none]

-- ---------------------------------------------------------------------------
-- The tokens of a line
-- ---------------------------------------------------------------------------

section Split

variable {f m : List Char} (st : Statics)

/-- A token is read up to the delimiter. -/
theorem getline_delimiter {delim : Char} (h : delim ∉ f) (rest str : List Char) :
    getline ⟨f ++ delim :: rest, false⟩ str delim = (⟨rest, false⟩, f) := by
  have hall := bne_of_not_mem h
  rw [getline, if_neg Bool.false_ne_true]
  simp only [List.dropWhile_append_of_pos hall, List.takeWhile_append_of_pos hall]
  simp

/-- The last token is read up to the end of the line. -/
theorem getline_last {delim : Char} (h : delim ∉ f) (str : List Char) :
    getline ⟨f, false⟩ str delim = (⟨[], true⟩, f) := by
  have hdrop : f.dropWhile (· != delim) = [] := List.dropWhile_eq_nil_iff.mpr (bne_of_not_mem h)
  rw [getline, if_neg Bool.false_ne_true]
  simp only [hdrop]

/-- After the end of the line the string is left as it was. -/
theorem getline_eof (rest str : List Char) (delim : Char) :
    getline ⟨rest, true⟩ str delim = (⟨rest, true⟩, str) := if_pos rfl

/-- Without a space two tokens are left over. -/
theorem splitQuery_of_not_mem (h : ' ' ∉ f) : splitQuery st f = ⟨f, st.middle, st.last⟩ := by
  rw [splitQuery]
  simp only [getline_last h, getline_eof]

/-- With one space one token is left over. -/
theorem splitQuery_one (hf : ' ' ∉ f) (hm : ' ' ∉ m) :
    splitQuery st (f ++ ' ' :: m) = ⟨f, m, st.last⟩ := by
  rw [splitQuery]
  simp only [getline_delimiter hf, getline_last hm, getline_eof]

/-- With two spaces all tokens are the line's own. -/
theorem splitQuery_two (hf : ' ' ∉ f) (hm : ' ' ∉ m) (rest : List Char) :
    splitQuery st (f ++ ' ' :: (m ++ ' ' :: rest)) = ⟨f, m, rest.takeWhile (· != ' ')⟩ := by
  rw [splitQuery]
  simp only [getline_delimiter hf, getline_delimiter hm]
  -- the third token ends at the next space, or with the line
  by_cases hrest : ' ' ∈ rest
  · obtain ⟨l, tail, rfl, hl⟩ := List.eq_append_cons_of_mem hrest
    rw [getline_delimiter hl, List.takeWhile_append_of_pos (bne_of_not_mem hl)]
    simp
  · rw [getline_last hrest, List.takeWhile_eq_self_iff.mpr (bne_of_not_mem hrest)]

/-- The lines of no, one and more spaces. -/
theorem spaces_cases (q : List Char) :
    ' ' ∉ q ∨ (∃ f m, q = f ++ ' ' :: m ∧ ' ' ∉ f ∧ ' ' ∉ m) ∨
      ∃ f m rest, q = f ++ ' ' :: (m ++ ' ' :: rest) ∧ ' ' ∉ f ∧ ' ' ∉ m := by
  by_cases hq : ' ' ∈ q
  · obtain ⟨f, tail, rfl, hf⟩ := List.eq_append_cons_of_mem hq
    by_cases htail : ' ' ∈ tail
    · obtain ⟨m, rest, rfl, hm⟩ := List.eq_append_cons_of_mem htail
      exact .inr (.inr ⟨f, m, rest, rfl, hf, hm⟩)
    · exact .inr (.inl ⟨f, tail, rfl, hf, htail⟩)
  · exact .inl hq

end Split

-- ---------------------------------------------------------------------------
-- Histories
-- ---------------------------------------------------------------------------

/-- The lines of a process, in the order in which they are parsed: the tokens that they
leave behind, unless a copy has left its object. -/
def parseAll (lines : List (List Char)) : Option Statics :=
  lines.foldlM (fun st q => (parseQuery st q).map (·.2)) Statics.initial

/-- Tokens that have been copied. -/
def Copied (left : Statics) : Prop :=
  (c_str left.middle).length < maxStrLen ∧ (c_str left.last).length < 3 * maxStrLen

/-- What is left after any lines was copied once, and so is short enough. -/
theorem copied_parseAll {lines : List (List Char)} {left : Statics}
    (h : parseAll lines = some left) : Copied left := by
  have hrun : ∀ (lines : List (List Char)) (st : Statics), Copied st →
      lines.foldlM (fun st q => (parseQuery st q).map (·.2)) st = some left → Copied left := by
    intro lines
    induction lines with
    | nil =>
      intro st hst hleft
      obtain rfl := Option.some.inj hleft
      exact hst
    | cons q lines ih =>
      intro st _ hleft
      obtain ⟨st', hst', hrest⟩ := Option.bind_eq_some_iff.mp hleft
      simp only [parseQuery_eq] at hst'
      by_cases hfits : (splitQuery st q).Fits
      · -- the tokens of this line, as far as there are
        rw [if_pos hfits] at hst'
        obtain rfl := Option.some.inj hst'
        exact ih _ ⟨hfits.2.1, hfits.2.2⟩ hrest
      · rw [if_neg hfits] at hst'
        cases hst'
  exact hrun lines _ ⟨by decide, by decide⟩ h

/-- A process that has parsed one line. -/
theorem parseAll_one {q : List Char} (h : (splitQuery Statics.initial q).Fits) :
    parseAll [q] = some (splitQuery Statics.initial q) := by
  rw [parseAll, List.foldlM_cons, parseQuery_eq, if_pos h]
  rfl

-- ---------------------------------------------------------------------------
-- A line as the first one
-- ---------------------------------------------------------------------------

/-- **The property**: a line gets the label that it gets when it is parsed first of all. -/
def SameAsFirst (left : Statics) (q : List Char) : Prop :=
  (parseQuery left q).map (·.1) = (parseQuery Statics.initial q).map (·.1)

/-- When the tokens that are left behind make no difference. -/
def Unaffected (left : Statics) (q : List Char) : Prop :=
  -- all tokens are the line's own, or its own do not fit
  2 ≤ q.count ' ' ∨ ¬ (splitQuery Statics.initial q).Fits ∨
    if (c_str left.last).length < maxStrLen then
      -- the third token is the query of a line with numbers, the second one may be a number
      if ' ' ∈ q then (splitQuery Statics.initial q).Numbered → c_str left.last = []
      else if (c_str q).length < maxStrLen then
        ¬ (isdigit_string (c_str q) = true ∧ isdigit_string (c_str left.middle) = true)
      else c_str left.middle = []
    else
      -- the third token runs into the array of the first
      ¬ (splitQuery Statics.initial q).Numbered ∧ ¬ (splitQuery left q).Numbered ∧
        (c_str left.last).drop maxStrLen = (splitQuery Statics.initial q).beginText

/-- The label of a line is that of its tokens, if they fit. -/
theorem sameAsFirst_iff_tokens (left : Statics) (q : List Char) :
    SameAsFirst left q ↔
      (if (splitQuery left q).Fits then some (splitQuery left q).label else none)
        = if (splitQuery Statics.initial q).Fits then some (splitQuery Statics.initial q).label
          else none := by
  rw [SameAsFirst, parseQuery_eq, parseQuery_eq, apply_ite (Option.map _), apply_ite (Option.map _)]
  rfl

/-- A label without numbers is the text of `strBegin`. -/
theorem label_eq_query_iff (p : Statics) (q : List Char) :
    p.label
        = { query := q, isDurationForcedFlag := false, speed := 1, begin_ := -1, end_ := -1 } ↔
      ¬ p.Numbered ∧ p.beginText = q := by
  rw [Statics.label]
  by_cases hp : p.Numbered
  · rw [if_pos hp]
    exact iff_of_false (fun heq => Bool.noConfusion (congrArg isDurationForcedFlag heq))
      fun hnot => hnot.1 hp
  · rw [if_neg hp]
    constructor
    · exact fun heq => ⟨hp, congrArg query heq⟩
    · rintro ⟨-, htext⟩
      rw [htext]

/-- A label without a time range has the text of the beginning for its query. -/
theorem label_eq_iff {p p' : Statics} (h : ¬ p'.Numbered) :
    p.label = p'.label ↔ ¬ p.Numbered ∧ p.beginText = p'.beginText := by
  have hp' : p'.label = _ := if_neg h
  rw [hp']
  exact label_eq_query_iff p p'.beginText

theorem not_numbered_of_endText {p : Statics} (h : p.endText = []) : ¬ p.Numbered := by
  intro hp
  have := hp.2
  rw [h] at this
  exact Bool.false_ne_true this

/-- Leftover tokens that fit where the line's own ones do. -/
theorem fits_left {left : Statics} (h : Copied left) {f m : List Char} :
    ((⟨f, m, left.last⟩ : Statics).Fits ↔ (⟨f, m, []⟩ : Statics).Fits) ∧
      ((⟨f, left.middle, left.last⟩ : Statics).Fits ↔ (⟨f, [], []⟩ : Statics).Fits) := by
  have hnil : (c_str []).length = 0 := rfl
  have hpos : 0 < maxStrLen := by decide
  obtain ⟨hm, hl⟩ := h
  unfold Statics.Fits
  simp only [hnil]
  constructor
  · constructor
    · exact fun hfits => ⟨hfits.1, hfits.2.1, by omega⟩
    · exact fun hfits => ⟨hfits.1, hfits.2.1, hl⟩
  · constructor
    · exact fun hfits => ⟨hfits.1, hpos, by omega⟩
    · exact fun hfits => ⟨hfits.1, hm, hl⟩

/-- A short third token leaves the others alone. -/
theorem texts_of_short {p : Statics} (h : (c_str p.last).length < maxStrLen) :
    p.beginText = (⟨p.first, p.middle, []⟩ : Statics).beginText ∧ p.endText = c_str p.middle := by
  have hpos : 0 < maxStrLen := by decide
  have hnil : (c_str []).length = 0 := rfl
  constructor
  · rw [Statics.beginText, Statics.beginText, if_pos h, hnil, if_pos hpos]
  · rw [Statics.endText, if_pos (by omega)]

/-- Two lines that are both parsed, or both not. -/
theorem read_eq_iff {p p' : Statics} (h : p.Fits ↔ p'.Fits) :
    (if p.Fits then some p.label else none) = (if p'.Fits then some p'.label else none) ↔
      ¬ p'.Fits ∨ p.label = p'.label := by
  by_cases hfits : p'.Fits
  · rw [if_pos (h.mpr hfits), if_pos hfits, Option.some_inj, or_iff_right (not_not_intro hfits)]
  · rw [if_neg (mt h.mp hfits), if_neg hfits]
    exact iff_of_true rfl (.inl hfits)

/-- A line with one space. -/
theorem label_one_iff (left : Statics) (f m : List Char) :
    (⟨f, m, left.last⟩ : Statics).label = (⟨f, m, []⟩ : Statics).label ↔
      if (c_str left.last).length < maxStrLen then
        (⟨f, m, []⟩ : Statics).Numbered → c_str left.last = []
      else
        ¬ (⟨f, m, []⟩ : Statics).Numbered ∧ ¬ (⟨f, m, left.last⟩ : Statics).Numbered ∧
          (c_str left.last).drop maxStrLen = (⟨f, m, []⟩ : Statics).beginText := by
  have hpos : 0 < maxStrLen := by decide
  have hnil : (c_str []).length = 0 := rfl
  split
  · next hshort =>
    -- the arrays of begin and end hold the same
    obtain ⟨hbegin, hend⟩ := texts_of_short (p := ⟨f, m, left.last⟩) hshort
    obtain ⟨-, hend'⟩ := texts_of_short (p := ⟨f, m, []⟩) (by simp only [hnil]; exact hpos)
    simp only at hbegin hend hend'
    have hnumbered : (⟨f, m, left.last⟩ : Statics).Numbered ↔ (⟨f, m, []⟩ : Statics).Numbered := by
      rw [Statics.Numbered, Statics.Numbered, hbegin, hend, hend']
    by_cases hown : (⟨f, m, []⟩ : Statics).Numbered
    · rw [Statics.label, Statics.label, if_pos (hnumbered.mpr hown), if_pos hown, hbegin, hend,
        hend']
      constructor
      · exact fun heq _ => congrArg query heq
      · intro hempty
        simp only [hempty hown]
        rfl
    · rw [label_eq_iff hown, hnumbered]
      exact iff_of_true ⟨hown, hbegin⟩ fun h => absurd h hown
  · next hlong =>
    by_cases hown : (⟨f, m, []⟩ : Statics).Numbered
    · -- a query is left behind where the line has none
      refine iff_of_false (fun heq => ?_) fun h => h.1 hown
      have hnumbered : (⟨f, m, left.last⟩ : Statics).Numbered := by
        by_contra hnot
        have hflag := congrArg isDurationForcedFlag heq
        rw [Statics.label, Statics.label, if_pos hown, if_neg hnot] at hflag
        exact Bool.noConfusion hflag
      have hquery := congrArg query heq
      rw [Statics.label, Statics.label, if_pos hown, if_pos hnumbered] at hquery
      have hlength : (c_str left.last).length = 0 := congrArg List.length hquery
      omega
    · have hbegin : (⟨f, m, left.last⟩ : Statics).beginText
          = (c_str left.last).drop maxStrLen := if_neg hlong
      rw [label_eq_iff hown, hbegin]
      exact ⟨fun h => ⟨hown, h⟩, fun h => h.2⟩

/-- A line without a space. -/
theorem label_of_not_mem_iff (left : Statics) (q : List Char) :
    (⟨q, left.middle, left.last⟩ : Statics).label = (⟨q, [], []⟩ : Statics).label ↔
      if (c_str left.last).length < maxStrLen then
        if (c_str q).length < maxStrLen then
          ¬ (isdigit_string (c_str q) = true ∧ isdigit_string (c_str left.middle) = true)
        else c_str left.middle = []
      else
        ¬ (⟨q, [], []⟩ : Statics).Numbered ∧ ¬ (⟨q, left.middle, left.last⟩ : Statics).Numbered ∧
          (c_str left.last).drop maxStrLen = (⟨q, [], []⟩ : Statics).beginText := by
  have hown : ¬ (⟨q, [], []⟩ : Statics).Numbered := not_numbered_of_endText rfl
  rw [label_eq_iff hown]
  split
  · next hshort =>
    obtain ⟨hbegin, hend⟩ := texts_of_short (p := ⟨q, left.middle, left.last⟩) hshort
    simp only at hbegin hend
    rw [Statics.Numbered, hbegin, hend]
    have hnil : (c_str []).length < maxStrLen := by decide
    have htext : ∀ m, (⟨q, m, []⟩ : Statics).beginText
        = if (c_str q).length < maxStrLen then c_str q else (c_str q).take maxStrLen ++ c_str m :=
      fun m => if_pos hnil
    simp only [htext]
    split
    · exact and_iff_left rfl
    · -- the second token goes on where the query is cut off
      have hempty : c_str [] = [] := rfl
      rw [hempty, List.append_nil, List.append_right_eq_self]
      refine and_iff_right_of_imp fun hm hdigits => ?_
      rw [hm] at hdigits
      exact Bool.false_ne_true hdigits.2
  · next hlong =>
    have hbegin : (⟨q, left.middle, left.last⟩ : Statics).beginText
        = (c_str left.last).drop maxStrLen := if_neg hlong
    rw [hbegin]
    exact ⟨fun h => ⟨hown, h⟩, fun h => h.2⟩

/-- **When a line is parsed as if it were the first one.** -/
theorem sameAsFirst_iff {lines : List (List Char)} {left : Statics}
    (h : parseAll lines = some left) (q : List Char) :
    SameAsFirst left q ↔ Unaffected left q := by
  have hcopied := copied_parseAll h
  rw [sameAsFirst_iff_tokens]
  rcases spaces_cases q with hq | ⟨f, m, rfl, hf, hm⟩ | ⟨f, m, rest, rfl, hf, hm⟩
  · have hcount : ¬ 2 ≤ q.count ' ' := by
      rw [List.count_eq_zero_of_not_mem hq]
      omega
    rw [Unaffected, or_iff_right hcount, splitQuery_of_not_mem _ hq, splitQuery_of_not_mem _ hq,
      if_neg hq]
    exact (read_eq_iff (fits_left hcopied (m := [])).2).trans
      (or_congr_right (label_of_not_mem_iff left q))
  · have hcount : ¬ 2 ≤ (f ++ ' ' :: m).count ' ' := by
      rw [List.count_append, List.count_cons_self, List.count_eq_zero_of_not_mem hf,
        List.count_eq_zero_of_not_mem hm]
      omega
    have hspace : ' ' ∈ f ++ ' ' :: m := List.mem_append_right _ List.mem_cons_self
    rw [Unaffected, or_iff_right hcount, splitQuery_one _ hf hm, splitQuery_one _ hf hm,
      if_pos hspace]
    exact (read_eq_iff (fits_left hcopied).1).trans (or_congr_right (label_one_iff left f m))
  · -- the tokens are those of the line
    rw [splitQuery_two _ hf hm, splitQuery_two _ hf hm]
    refine iff_of_true rfl (.inl ?_)
    rw [List.count_append, List.count_cons_self, List.count_append, List.count_cons_self]
    omega

/-- A line with numbers of its own, after another one. -/
theorem sameAsFirst_numbered : SameAsFirst ⟨['1'], ['2'], ['a']⟩ "3 4 b".toList :=
  (@sameAsFirst_iff ["1 2 a".toList] _ (parseAll_one (by decide)) _).mpr (.inl (by decide))

/-- The line `5` is a query on its own, and the begin of query `a` after `1 2 a`. -/
theorem not_sameAsFirst :
    ¬ ∀ lines left q, parseAll lines = some left → SameAsFirst left q := by
  intro h
  have hparse : parseAll ["1 2 a".toList] = some ⟨['1'], ['2'], ['a']⟩ :=
    parseAll_one (q := "1 2 a".toList) (by decide)
  have hsame := h _ _ ['5'] hparse
  rw [sameAsFirst_iff_tokens, splitQuery_of_not_mem _ (by decide),
    splitQuery_of_not_mem _ (by decide), read_eq_iff (by decide)] at hsame
  rcases hsame with hfits | hlabel
  · exact hfits (by decide)
  · have hflag := congrArg isDurationForcedFlag hlabel
    rw [Statics.label, Statics.label, if_pos (by decide), if_neg (by decide)] at hflag
    exact Bool.noConfusion hflag

-- ---------------------------------------------------------------------------
-- Round trips
-- ---------------------------------------------------------------------------

/-- A line with numbers. -/
def numberedLine (b e : Nat) (q : List Char) : List Char :=
  Nat.toDigits 10 b ++ ' ' :: (Nat.toDigits 10 e ++ ' ' :: q)

/-- **The property**: a query is read back, on its own, and after any begin and end. -/
def RoundTrips (left : Statics) (q : List Char) : Prop :=
  (parseQuery left q).map (·.1)
      = some { query := q, isDurationForcedFlag := false, speed := 1, begin_ := -1, end_ := -1 } ∧
    ∀ b e : Nat, b < 2 ^ 31 → e < 2 ^ 31 → (parseQuery left (numberedLine b e q)).map (·.1)
      = some { query := q, isDurationForcedFlag := true, speed := 1, begin_ := b, end_ := e }

section Digits

variable {c : Char} {ds : List Char}

theorem toNat_of_isDigit (h : c.isDigit = true) : 48 ≤ c.toNat ∧ c.toNat ≤ 57 := by
  rw [Char.isDigit, Bool.and_eq_true, decide_eq_true_iff, decide_eq_true_iff] at h
  exact ⟨UInt32.le_iff_toNat_le.mp h.1, UInt32.le_iff_toNat_le.mp h.2⟩

/-- A numeral starts with neither a blank nor a sign. -/
theorem takeSign_digits (hc : c.isDigit = true) :
    takeSign ((c :: ds).dropWhile isspace) = (1, c :: ds) := by
  have hrange := toNat_of_isDigit hc
  have hspace : isspace c = false := by
    rw [isspace, Bool.or_eq_false_iff]
    refine ⟨beq_false_of_ne fun h => ?_, ?_⟩
    · rw [h] at hrange
      exact absurd hrange.1 (by decide)
    · rw [Bool.and_eq_false_iff, decide_eq_false_iff_not, decide_eq_false_iff_not]
      exact .inr (by omega)
  rw [List.dropWhile_cons, hspace, if_neg Bool.false_ne_true, takeSign]
  · rintro cs h
    rw [(List.cons.inj h).1] at hrange
    exact absurd hrange.1 (by decide)
  · rintro cs h
    rw [(List.cons.inj h).1] at hrange
    exact absurd hrange.1 (by decide)

/-- A text of digits is a number to `isdigit_string`. -/
theorem isdigit_string_digits (hne : ds ≠ []) (h : ∀ c ∈ ds, c.isDigit = true) :
    isdigit_string ds = true := by
  obtain ⟨c, cs, rfl⟩ := List.exists_cons_of_ne_nil hne
  rw [isdigit_string, takeSign_digits (h c List.mem_cons_self)]
  exact h c List.mem_cons_self

/-- A numeral of digits only. -/
theorem numeralValue_digits (hne : ds ≠ []) (h : ∀ c ∈ ds, c.isDigit = true) :
    numeralValue 10 10 Char.isDigit 'e' ds = digitsValue 10 ds := by
  have htake : ds.takeWhile Char.isDigit = ds := List.takeWhile_eq_self_iff.mpr h
  have hdrop : ds.dropWhile Char.isDigit = [] := List.dropWhile_eq_nil_iff.mpr h
  rw [numeralValue]
  simp only [htake, hdrop, hne, false_and, if_false, List.append_nil, List.length_nil, pow_zero,
    div_one, exponentOf, zpow_zero, mul_one]

/-- `atof` reads digits as the number that they write. -/
theorem atof_digits (hne : ds ≠ []) (h : ∀ c ∈ ds, c.isDigit = true) :
    atof ds = digitsValue 10 ds := by
  obtain ⟨c, cs, rfl⟩ := List.exists_cons_of_ne_nil hne
  rw [atof, takeSign_digits (h c List.mem_cons_self)]
  simp only [Int.cast_one, one_mul]
  split
  · next x d rest hzero =>
    -- what follows the first digit is no `x`
    have hx : x.isDigit = true := h x (by rw [hzero]; simp)
    have hrange := toNat_of_isDigit hx
    have hprefix : ¬ ((x == 'x' || x == 'X') && isxdigit d) = true := by
      intro hboth
      rw [Bool.and_eq_true, Bool.or_eq_true, beq_iff_eq, beq_iff_eq] at hboth
      rcases hboth.1 with rfl | rfl
      · exact absurd hrange.2 (by decide)
      · exact absurd hrange.2 (by decide)
    rw [if_neg hprefix]
    exact numeralValue_digits hne h
  · exact numeralValue_digits hne h

/-- Decimal digits write their number. -/
theorem digitsValue_toDigits (n : Nat) : digitsValue 10 (Nat.toDigits 10 n) = n := by
  have hfold : ∀ (ds : List Char) (init : Nat), (∀ c ∈ ds, c.isDigit = true) →
      ds.foldl (fun n c => n * 10 + digitValue c) init = Nat.ofDigitChars 10 ds init := by
    intro ds
    induction ds with
    | nil => exact fun init _ => rfl
    | cons c ds ih =>
      intro init h
      have hvalue : digitValue c = c.toNat - '0'.toNat := by
        rw [digitValue, if_pos (h c List.mem_cons_self)]
      rw [List.foldl_cons, Nat.ofDigitChars_cons, hvalue, Nat.mul_comm init 10]
      exact ih _ fun d hd => h d (List.mem_cons_of_mem _ hd)
  rw [digitsValue, hfold _ _ fun c hc => Nat.isDigit_of_mem_toDigits (by decide) (by decide) hc]
  exact Nat.ofDigitChars_ten_toDigits

end Digits

/-- A number as it is written. -/
theorem toDigits_token {n : Nat} (h : n < 2 ^ 31) :
    Nat.toDigits 10 n ≠ [] ∧ (∀ c ∈ Nat.toDigits 10 n, c.isDigit = true) ∧
      ' ' ∉ Nat.toDigits 10 n ∧ c_str (Nat.toDigits 10 n) = Nat.toDigits 10 n ∧
      (Nat.toDigits 10 n).length < maxStrLen := by
  have hdigits : ∀ c ∈ Nat.toDigits 10 n, c.isDigit = true := fun c hc =>
    Nat.isDigit_of_mem_toDigits (by decide) (by decide) hc
  have hlength : (Nat.toDigits 10 n).length ≤ 10 :=
    (Nat.length_toDigits_le_iff (by decide) (by decide)).mpr (by omega)
  have hmax : maxStrLen = 1024 := rfl
  refine ⟨Nat.toDigits_ne_nil, hdigits, fun hmem => ?_, c_str_of_nul_not_mem fun hmem => ?_,
    by omega⟩
  · exact absurd (hdigits _ hmem) (by decide)
  · exact absurd (hdigits _ hmem) (by decide)

/-- A line with numbers has tokens of its own, whatever was parsed before. -/
theorem parseQuery_numberedLine (left : Statics) {q : List Char} (hspace : ' ' ∉ q)
    (hlength : q.length < maxStrLen) {b e : Nat} (hb : b < 2 ^ 31) (he : e < 2 ^ 31) :
    (parseQuery left (numberedLine b e q)).map (·.1)
      = some
          { query := c_str q
            isDurationForcedFlag := true
            speed := 1
            begin_ := b
            end_ := e } := by
  obtain ⟨hbne, hbdigits, hbspace, hbtext, hblength⟩ := toDigits_token hb
  obtain ⟨hene, hedigits, hespace, hetext, helength⟩ := toDigits_token he
  have hq : q.takeWhile (· != ' ') = q := List.takeWhile_eq_self_iff.mpr (bne_of_not_mem hspace)
  have hlast := c_str_length_le q
  set p : Statics := ⟨Nat.toDigits 10 b, Nat.toDigits 10 e, q⟩ with hp
  -- the line has three tokens, so nothing is left over from the line before
  have htokens : splitQuery left (numberedLine b e q) = p := by
    rw [numberedLine, splitQuery_two left hbspace hespace, hq]
  have hbegin : p.beginText = Nat.toDigits 10 b := by
    rw [Statics.beginText, if_pos (by simp only [hp]; omega), hp]
    simp only [hbtext, if_pos hblength]
  have hend : p.endText = Nat.toDigits 10 e := by
    rw [Statics.endText, if_pos (by simp only [hp]; omega), hp]
    exact hetext
  -- a number below 2 ^ 31 has ten digits at most
  have hfits : p.Fits := by
    unfold Statics.Fits
    simp only [hp, hbtext, hetext]
    omega
  have hnumbered : p.Numbered := by
    rw [Statics.Numbered, hbegin, hend]
    exact ⟨isdigit_string_digits hbne hbdigits, isdigit_string_digits hene hedigits⟩
  rw [parseQuery_eq, htokens, if_pos hfits, Option.map_some, Statics.label, if_pos hnumbered,
    hbegin, hend, atof_digits hbne hbdigits, atof_digits hene hedigits, digitsValue_toDigits,
    digitsValue_toDigits, truncate_natCast, truncate_natCast]

/-- A line that is a query on its own. -/
theorem parseQuery_query_iff {left : Statics} (h : Copied left) {q : List Char} (hspace : ' ' ∉ q)
    (hlength : q.length < maxStrLen) :
    (parseQuery left q).map (·.1)
        = some { query := q, isDurationForcedFlag := false, speed := 1, begin_ := -1, end_ := -1 } ↔
      ¬ (⟨q, left.middle, left.last⟩ : Statics).Numbered ∧
        (⟨q, left.middle, left.last⟩ : Statics).beginText = q := by
  have hfits : (⟨q, left.middle, left.last⟩ : Statics).Fits := by
    have hq := c_str_length_le q
    obtain ⟨hm, hl⟩ := h
    exact ⟨by simp only; omega, hm, hl⟩
  rw [parseQuery_eq, splitQuery_of_not_mem left hspace, if_pos hfits, Option.map_some,
    Option.some_inj]
  exact label_eq_query_iff _ q

/-- **When a query is read back**: it holds no NUL, no long third token is left behind to run
into its array, and it and the second token that is left behind are not both numbers. -/
theorem roundTrips_iff {lines : List (List Char)} {left : Statics}
    (h : parseAll lines = some left) {q : List Char} (hspace : ' ' ∉ q)
    (hlength : q.length < maxStrLen) :
    RoundTrips left q ↔
      '\x00' ∉ q ∧
        ((c_str left.last).length < maxStrLen ∨ (c_str left.last).drop maxStrLen = q) ∧
        ¬ (isdigit_string q = true ∧ isdigit_string (c_str left.middle) = true) := by
  have hnumbered : (∀ b e : Nat, b < 2 ^ 31 → e < 2 ^ 31 →
      (parseQuery left (numberedLine b e q)).map (·.1)
        = some
            { query := q, isDurationForcedFlag := true, speed := 1, begin_ := b, end_ := e }) ↔
      '\x00' ∉ q := by
    constructor
    · intro hall hnul
      have hzero := hall 0 0 (by decide) (by decide)
      rw [parseQuery_numberedLine left hspace hlength (by decide) (by decide)] at hzero
      have hq : c_str q = q := congrArg query (Option.some.inj hzero)
      exact nul_not_mem_c_str q (hq.symm ▸ hnul)
    · intro hnul b e hb he
      rw [parseQuery_numberedLine left hspace hlength hb he, c_str_of_nul_not_mem hnul]
  rw [RoundTrips, hnumbered, parseQuery_query_iff (copied_parseAll h) hspace hlength, and_comm]
  refine and_congr_right fun hnul => ?_
  have hself := c_str_of_nul_not_mem hnul
  have hpos : 0 < maxStrLen := by decide
  by_cases hshort : (c_str left.last).length < maxStrLen
  · -- the arrays hold the query and the second token that is left behind
    have hbegin : (⟨q, left.middle, left.last⟩ : Statics).beginText = q := by
      rw [Statics.beginText, if_pos hshort]
      simp only [hself, if_pos hlength]
    have hend : (⟨q, left.middle, left.last⟩ : Statics).endText = c_str left.middle :=
      if_pos (by simp only; omega)
    rw [Statics.Numbered, hbegin, hend]
    simp only [hshort, true_or, true_and, and_true]
  · have hbegin : (⟨q, left.middle, left.last⟩ : Statics).beginText
        = (c_str left.last).drop maxStrLen := if_neg hshort
    rw [Statics.Numbered, hbegin, or_iff_right hshort, and_comm]
    refine and_congr_right fun hdrop => ?_
    -- then the third token does not reach the last array
    have hlast : (c_str left.last).length < 2 * maxStrLen := by
      have := congrArg List.length hdrop
      rw [List.length_drop] at this
      omega
    have hend : (⟨q, left.middle, left.last⟩ : Statics).endText = c_str left.middle := if_pos hlast
    rw [hdrop, hend]

/-- What the numbered lines of two phonemes leave behind. -/
def afterNumbered : Statics :=
  ⟨"2050000".toList, "3500000".toList, "x^sil-m+ay=k".toList⟩

/-- A query after two lines with numbers. -/
theorem roundTrips_numbered : RoundTrips afterNumbered "sil^m-ay+k=x".toList :=
  (@roundTrips_iff ["0 2050000 x^x-sil+m=ay".toList, "2050000 3500000 x^sil-m+ay=k".toList] _
    (by decide +kernel) _ (by decide) (by decide)).mpr (by decide)

/-- A query after a line with a third token that fills its array. -/
theorem not_roundTrips_long :
    ¬ ∀ lines left q, parseAll lines = some left → q ≠ [] → ' ' ∉ q → q.length < maxStrLen →
      isdigit_string q = false → RoundTrips left q := by
  intro h
  have htokens : splitQuery Statics.initial ("a b ".toList ++ List.replicate maxStrLen 'x')
      = ⟨['a'], ['b'], List.replicate maxStrLen 'x'⟩ := by
    have hx : (List.replicate maxStrLen 'x').takeWhile (· != ' ') = List.replicate maxStrLen 'x' :=
      List.takeWhile_eq_self_iff.mpr fun c hc => by
        rw [List.eq_of_mem_replicate hc]
        rfl
    have hsplit := splitQuery_two Statics.initial (f := ['a']) (m := ['b']) (by decide) (by decide)
      (List.replicate maxStrLen 'x')
    rw [hx] at hsplit
    exact hsplit
  have hlast : c_str (List.replicate maxStrLen 'x') = List.replicate maxStrLen 'x' :=
    c_str_of_nul_not_mem fun hmem => absurd (List.eq_of_mem_replicate hmem) (by decide)
  have hfits :
      (splitQuery Statics.initial ("a b ".toList ++ List.replicate maxStrLen 'x')).Fits := by
    rw [htokens]
    unfold Statics.Fits
    simp only [hlast, List.length_replicate]
    decide
  have hparse := parseAll_one hfits
  rw [htokens] at hparse
  obtain ⟨hquery, -⟩ := h _ _ ['q'] hparse (by decide) (by decide) (by decide) (by decide)
  rw [parseQuery_query_iff (copied_parseAll hparse) (by decide) (by decide)] at hquery
  -- the query is read from the end of the third token
  have htext := hquery.2
  rw [Statics.beginText] at htext
  simp only [hlast, List.length_replicate, Nat.lt_irrefl, if_false, List.drop_replicate,
    Nat.sub_self] at htext
  exact absurd htext (by decide)

end Label

end Vox.Mage
