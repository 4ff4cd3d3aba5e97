import Mathlib.Data.List.TakeWhile
import Vox.Lib.Rounding
import Vox.Mage.Constants

/-!
# MAGE — labels and their parser

`Label.parseQuery` splits a label line at its first two spaces, copies the
three pieces into the label's `char[maxStrLen]` arrays and reads the label back
from there. Strings are lists of C characters (a `Char` stands for the byte of
its code).

Two things the arithmetic of a plain split would hide are kept:

* **The statics.** `first`, `middle` and `last` are static variables of the
  function and `std::getline` leaves its argument alone once the stream is at
  its end, so a line with fewer than three pieces copies what an earlier line
  left there (`Statics`, `getline`).
* **The arrays.** The three arrays are adjacent members of one object
  (`LabelMemory`): a copy that does not fit its array runs on into the next
  one, and one that does not fit the object has no defined result (`none`).

Main results:

* `parseQuery_isSome` — pieces that fit the object parse.
* `parseQuery_query_length` — when the first and the last piece fit their
  arrays, the query that is read back fits one too.
-/

namespace Vox.Mage

open Lib

-- ---------------------------------------------------------------------------
-- Reading numbers, as the C library does
-- ---------------------------------------------------------------------------

def isspace (c : Char) : Bool := c == ' ' || (9 ≤ c.toNat && c.toNat ≤ 13)

def isxdigit (c : Char) : Bool :=
  c.isDigit || ('a' ≤ c && c ≤ 'f') || ('A' ≤ c && c ≤ 'F')

/-- A sign and what follows it. -/
def takeSign : List Char → Int × List Char
  | '-' :: cs => (-1, cs)
  | '+' :: cs => (1, cs)
  | cs => (1, cs)

/-- `sscanf( str, "%d", &i ) == 1`. -/
def isdigit_string (str : List Char) : Bool :=
  match (takeSign (str.dropWhile isspace)).2 with
  | [] => false
  | c :: _ => c.isDigit

def digitValue (c : Char) : Nat :=
  if c.isDigit then c.toNat - '0'.toNat
  else if 'a' ≤ c then c.toNat - 'a'.toNat + 10
  else c.toNat - 'A'.toNat + 10

def digitsValue (base : Nat) (ds : List Char) : Nat :=
  ds.foldl (fun n c => n * base + digitValue c) 0

/-- The exponent after `mark`, and none when no digit follows it. -/
def exponentOf (mark : Char) : List Char → Int
  | [] => 0
  | c :: cs =>
    if c.toLower == mark then
      (takeSign cs).1 * digitsValue 10 ((takeSign cs).2.takeWhile Char.isDigit)
    else 0

/-- The value of a numeral: digits, an optional fraction, an optional exponent. -/
def numeralValue (base expBase : Nat) (isDig : Char → Bool) (mark : Char)
    (cs : List Char) : ℚ :=
  let whole := cs.takeWhile isDig
  let rest := cs.dropWhile isDig
  let frac := match rest with
    | '.' :: fs => fs.takeWhile isDig
    | _ => []
  let tail := match rest with
    | '.' :: fs => fs.dropWhile isDig
    | _ => rest
  if whole = [] ∧ frac = [] then 0
  else
    digitsValue base (whole ++ frac) / (base : ℚ) ^ frac.length
      * (expBase : ℚ) ^ exponentOf mark tail

/-- `atof`, in exact arithmetic. -/
def atof (str : List Char) : ℚ :=
  let signed := takeSign (str.dropWhile isspace)
  let value := match signed.2 with
    | '0' :: x :: c :: cs =>
      if (x == 'x' || x == 'X') && isxdigit c then
        numeralValue 16 2 isxdigit 'p' (c :: cs)
      else numeralValue 10 10 Char.isDigit 'e' signed.2
    | cs => numeralValue 10 10 Char.isDigit 'e' cs
  signed.1 * value

example : isdigit_string " -12a".toList = true ∧ isdigit_string "x12".toList = false := by
  decide

-- ---------------------------------------------------------------------------
-- Strings in the label's memory
-- ---------------------------------------------------------------------------

/-- `str.c_str()`: a C string ends at the first NUL. -/
def c_str (s : List Char) : List Char := s.takeWhile (· != '\x00')

theorem c_str_length_le (s : List Char) : (c_str s).length ≤ s.length :=
  (List.takeWhile_prefix _).length_le

/-- The bytes of a `LabelMemory` object: three arrays of `maxStrLen`
characters, one after the other in the order of their declaration. -/
abbrev LabelMemory := Nat → Char

namespace LabelMemory

def strQuery : Nat := 0
def strBegin : Nat := maxStrLen
def strEnd : Nat := 2 * maxStrLen
def size : Nat := 3 * maxStrLen

end LabelMemory

/-- `strcpy( &mem[dst], src.c_str() )`: the characters and a NUL, or nothing
defined when they leave the object. -/
def strcpy (mem : LabelMemory) (dst : Nat) (src : List Char) : Option LabelMemory :=
  if dst + (c_str src).length < LabelMemory.size then
    some fun i =>
      if dst ≤ i ∧ i ≤ dst + (c_str src).length then (c_str src).getD (i - dst) '\x00'
      else mem i
  else none

/-- The C string that starts at `src`. -/
def stringAt (mem : LabelMemory) (src : Nat) : List Char :=
  c_str ((List.range' src (LabelMemory.size - src)).map mem)

/-- A copy changes the cells it writes, the terminating NUL included, and no other. -/
theorem strcpy_apply {mem mem' : LabelMemory} {dst : Nat} {src : List Char}
    (h : strcpy mem dst src = some mem') :
    mem' (dst + (c_str src).length) = '\x00' ∧
      ∀ i, (i < dst ∨ dst + (c_str src).length < i) → mem' i = mem i := by
  unfold strcpy at h
  split at h
  · rw [Option.some.injEq] at h
    subst h
    exact ⟨by simp, fun i hi => if_neg (by omega)⟩
  · simp at h

theorem strcpy_isSome (mem : LabelMemory) (dst : Nat) (src : List Char)
    (h : dst + src.length < LabelMemory.size) : ∃ mem', strcpy mem dst src = some mem' := by
  have := c_str_length_le src
  exact ⟨_, if_pos (by omega)⟩

/-- A string is no longer than the distance to a NUL after its start. -/
theorem stringAt_length_le {mem : LabelMemory} {src n : Nat}
    (hnul : mem (src + n) = '\x00') :
    (stringAt mem src).length ≤ n := by
  by_contra hlong
  push Not at hlong
  -- a longer string would hold the NUL
  have hget : (stringAt mem src)[n] = '\x00' := by
    have hpre : stringAt mem src <+: (List.range' src (LabelMemory.size - src)).map mem :=
      List.takeWhile_prefix _
    rw [hpre.getElem]
    simp [hnul]
  have hall : ∀ c ∈ stringAt mem src, (c != '\x00') = true :=
    fun c hc => List.mem_takeWhile_imp (p := (· != '\x00')) hc
  have := hall _ (List.getElem_mem hlong)
  rw [hget] at this
  simp at this

-- ---------------------------------------------------------------------------
-- Labels
-- ---------------------------------------------------------------------------

/-- An input string stream: what is left to read, and whether its end has been hit. -/
structure IStringStream where
  rest : List Char
  eof : Bool

/-- `std::getline( in, str, delim )`: the new value of `str` and the stream.
At the end of the stream `str` keeps its old value. -/
def getline (s : IStringStream) (str : List Char) (delim : Char) :
    IStringStream × List Char :=
  if s.eof then (s, str)
  else
    match s.rest.dropWhile (· != delim) with
    | [] => (⟨[], true⟩, s.rest)
    | _ :: rest => (⟨rest, false⟩, s.rest.takeWhile (· != delim))

/-- The static variables of `Label::parseQuery`. -/
structure Statics where
  first : List Char
  middle : List Char
  last : List Char
  deriving DecidableEq, Repr

/-- The statics at the start of the process. -/
def Statics.initial : Statics := ⟨[], [], []⟩

structure Label where
  query : List Char
  isDurationForcedFlag : Bool
  speed : ℚ
  begin_ : Int
  end_ : Int
  deriving DecidableEq, Repr

/-- `Label::Label( void )`. -/
instance : Inhabited Label := ⟨⟨[], false, 1, -1, -1⟩⟩

def Label.setSpeed (label : Label) (speed : ℚ) : Label := { label with speed := speed }

namespace Label

/-- The three pieces of the line `q`, as the `getline` calls leave the statics. -/
def splitQuery (st : Statics) (q : List Char) : Statics :=
  let s1 := getline ⟨q, false⟩ st.first ' '
  let s2 := getline s1.1 st.middle ' '
  let s3 := getline s2.1 st.last ' '
  ⟨s1.2, s2.2, s3.2⟩

/-- `Label::parseQuery`, on freshly constructed memory: every cell that is read
has been written before. -/
def parseQuery (st : Statics) (q : List Char) : Option (Label × Statics) := do
  let st := splitQuery st q
  let mem ← strcpy (fun _ => '\x00') LabelMemory.strBegin st.first
  let mem ← strcpy mem LabelMemory.strEnd st.middle
  let mem ← strcpy mem LabelMemory.strQuery st.last
  let strBegin := stringAt mem LabelMemory.strBegin
  let strEnd := stringAt mem LabelMemory.strEnd
  if isdigit_string strBegin && isdigit_string strEnd then
    some ({ query := stringAt mem LabelMemory.strQuery
            isDurationForcedFlag := true
            speed := 1
            begin_ := truncate (atof strBegin)
            end_ := truncate (atof strEnd) }, st)
  else
    some ({ query := strBegin
            isDurationForcedFlag := false
            speed := 1
            begin_ := -1
            end_ := -1 }, st)

-- ---------------------------------------------------------------------------
-- Lengths of the pieces
-- ---------------------------------------------------------------------------

/-- What a piece can be: a piece of the stream's text, or the old value. -/
theorem getline_spec (s : IStringStream) (str : List Char) (delim : Char) :
    (s.eof = true ∧ getline s str delim = (s, str)) ∨
      (s.eof = false ∧ (getline s str delim).2 = s.rest.takeWhile (· != delim) ∧
        ((getline s str delim).1.eof = false →
          (getline s str delim).2.length + 1 + (getline s str delim).1.rest.length
            = s.rest.length)) := by
  unfold getline
  cases heof : s.eof with
  | true => exact Or.inl ⟨rfl, rfl⟩
  | false =>
    refine Or.inr ⟨rfl, ?_⟩
    have happ := List.takeWhile_append_dropWhile (p := (· != delim)) (l := s.rest)
    cases hdrop : s.rest.dropWhile (· != delim) with
    | nil =>
      -- no delimiter: all of the rest, and the end of the stream
      rw [hdrop, List.append_nil] at happ
      simp [happ]
    | cons c rest =>
      -- up to the delimiter, which is dropped
      rw [hdrop] at happ
      have hlen := congrArg List.length happ
      simp only [List.length_append, List.length_cons] at hlen
      simp only [Bool.false_eq_true, if_false]
      exact ⟨trivial, fun _ => by omega⟩

theorem splitQuery_first (st : Statics) (q : List Char) :
    (splitQuery st q).first = q.takeWhile (· != ' ') := by
  rcases getline_spec ⟨q, false⟩ st.first ' ' with ⟨h, -⟩ | ⟨-, h, -⟩
  · simp at h
  · exact h

/-- What a piece leaves unread, and how long it is. -/
theorem getline_length_le (s : IStringStream) (str : List Char) (delim : Char) :
    (getline s str delim).2.length ≤ max s.rest.length str.length ∧
      (s.eof = true → (getline s str delim).1.eof = true) ∧
      ((getline s str delim).1.eof = false →
        (getline s str delim).1.rest.length + 1 ≤ s.rest.length) := by
  rcases getline_spec s str delim with ⟨heof, h⟩ | ⟨heof, h, hrest⟩
  · rw [h]
    exact ⟨le_max_right _ _, id, fun hne => by simp [heof] at hne⟩
  · refine ⟨?_, fun ht => by simp [heof] at ht, fun hne => by have := hrest hne; omega⟩
    rw [h]
    exact le_trans (List.takeWhile_prefix _).length_le (le_max_left _ _)

/-- A later piece is a piece of a proper part of the line, or an old value. -/
theorem splitQuery_length_le (st : Statics) (q : List Char) :
    (splitQuery st q).middle.length ≤ max (q.length - 1) st.middle.length ∧
      (splitQuery st q).last.length ≤ max (q.length - 1) st.last.length := by
  set s1 := (getline ⟨q, false⟩ st.first ' ').1 with hs1
  set s2 := (getline s1 st.middle ' ').1 with hs2
  have h1 := getline_length_le ⟨q, false⟩ st.first ' '
  have h2 := getline_length_le s1 st.middle ' '
  have h3 := getline_length_le s2 st.last ' '
  rw [← hs1] at h1
  rw [← hs2] at h2
  have hmiddle : (splitQuery st q).middle = (getline s1 st.middle ' ').2 := rfl
  have hlast : (splitQuery st q).last = (getline s2 st.last ' ').2 := rfl
  rw [hmiddle, hlast]
  -- a stream at its end hands the old value back, an open one has lost a character
  cases he1 : s1.eof with
  | true =>
    have he2 : s2.eof = true := h2.2.1 he1
    have hm : getline s1 st.middle ' ' = (s1, st.middle) := by simp [getline, he1]
    have hl : getline s2 st.last ' ' = (s2, st.last) := by simp [getline, he2]
    rw [hm, hl]
    exact ⟨le_max_right _ _, le_max_right _ _⟩
  | false =>
    have hr1 : s1.rest.length + 1 ≤ q.length := h1.2.2 he1
    refine ⟨by omega, ?_⟩
    cases he2 : s2.eof with
    | true =>
      have hl : getline s2 st.last ' ' = (s2, st.last) := by simp [getline, he2]
      rw [hl]
      exact le_max_right _ _
    | false =>
      have hr2 : s2.rest.length + 1 ≤ s1.rest.length := h2.2.2 he2
      omega

/-- The pieces that may survive a parse fit an array. -/
def StaticsFit (st : Statics) : Prop :=
  st.middle.length < maxStrLen ∧ st.last.length < maxStrLen

theorem staticsFit_initial : StaticsFit Statics.initial := by
  simp [StaticsFit, Statics.initial, maxStrLen]

theorem staticsFit_splitQuery {st : Statics} {q : List Char}
    (hst : StaticsFit st) (hq : q.length ≤ maxStrLen) : StaticsFit (splitQuery st q) := by
  obtain ⟨hm, hl⟩ := splitQuery_length_le st q
  obtain ⟨hsm, hsl⟩ := hst
  have hpos : 0 < maxStrLen := by decide
  exact ⟨by omega, by omega⟩

-- ---------------------------------------------------------------------------
-- Parsing within the label's memory
-- ---------------------------------------------------------------------------

/-- A line of at most `maxStrLen` characters parses: the first piece may run
one byte past its array, but stays in the object. -/
theorem parseQuery_isSome {st : Statics} {q : List Char}
    (hst : StaticsFit st) (hq : q.length ≤ maxStrLen) :
    ∃ label, parseQuery st q = some (label, splitQuery st q) := by
  obtain ⟨hm, hl⟩ := staticsFit_splitQuery hst hq
  have hf : (splitQuery st q).first.length ≤ maxStrLen := by
    rw [splitQuery_first]
    have hpre := List.takeWhile_prefix (l := q) (· != ' ')
    exact hpre.length_le.trans hq
  -- three copies, each inside the object
  obtain ⟨mem1, h1⟩ := strcpy_isSome (fun _ => '\x00') LabelMemory.strBegin (splitQuery st q).first
    (by unfold LabelMemory.strBegin LabelMemory.size; omega)
  obtain ⟨mem2, h2⟩ := strcpy_isSome mem1 LabelMemory.strEnd (splitQuery st q).middle
    (by unfold LabelMemory.strEnd LabelMemory.size; omega)
  obtain ⟨mem3, h3⟩ := strcpy_isSome mem2 LabelMemory.strQuery (splitQuery st q).last
    (by unfold LabelMemory.strQuery LabelMemory.size; omega)
  simp only [parseQuery, h1, h2, h3, Option.bind_eq_bind, Option.bind_some]
  split
  · exact ⟨_, rfl⟩
  · exact ⟨_, rfl⟩

/-- Parsing keeps the statics the pieces were split into, and takes the query
from one of two arrays. -/
theorem parseQuery_eq_some {st st' : Statics} {q : List Char} {label : Label}
    (h : parseQuery st q = some (label, st')) :
    st' = splitQuery st q ∧ ∃ mem1 mem2 mem3,
      strcpy (fun _ => '\x00') LabelMemory.strBegin st'.first = some mem1 ∧
      strcpy mem1 LabelMemory.strEnd st'.middle = some mem2 ∧
      strcpy mem2 LabelMemory.strQuery st'.last = some mem3 ∧
      (label.query = stringAt mem3 LabelMemory.strQuery ∨
        label.query = stringAt mem3 LabelMemory.strBegin) := by
  simp only [parseQuery, Option.bind_eq_bind, Option.bind_eq_some_iff] at h
  obtain ⟨mem1, h1, mem2, h2, mem3, h3, h⟩ := h
  split at h
  · obtain ⟨rfl, rfl⟩ := Prod.mk.inj (Option.some.inj h)
    exact ⟨rfl, mem1, mem2, mem3, h1, h2, h3, Or.inl rfl⟩
  · obtain ⟨rfl, rfl⟩ := Prod.mk.inj (Option.some.inj h)
    exact ⟨rfl, mem1, mem2, mem3, h1, h2, h3, Or.inr rfl⟩

/-- **Pieces that fit their arrays leave a query that fits one**: each array
keeps the NUL its own copy wrote. -/
theorem parseQuery_query_length {st st' : Statics} {q : List Char} {label : Label}
    (h : parseQuery st q = some (label, st'))
    (hf : st'.first.length < maxStrLen) (hl : st'.last.length < maxStrLen) :
    label.query.length < maxStrLen := by
  obtain ⟨-, mem1, mem2, mem3, h1, h2, h3, hq⟩ := parseQuery_eq_some h
  have hf' := c_str_length_le st'.first
  have hl' := c_str_length_le st'.last
  rcases hq with hq | hq
  · have hnul := (strcpy_apply h3).1
    have hlen := stringAt_length_le hnul
    rw [hq]
    omega
  · have hnul : mem3 (LabelMemory.strBegin + (c_str st'.first).length) = '\x00' := by
      rw [(strcpy_apply h3).2 _
          (Or.inr (by unfold LabelMemory.strQuery LabelMemory.strBegin; omega)),
        (strcpy_apply h2).2 _ (Or.inl (by unfold LabelMemory.strBegin LabelMemory.strEnd; omega))]
      exact (strcpy_apply h1).1
    have hlen := stringAt_length_le hnul
    rw [hq]
    omega

end Label

end Vox.Mage
