import Vox.Mage.Load

/-!
# hts_engine — tokens of a tree file

`HTS_get_pattern_token` reads the next token of a tree file into a buffer: a word up to the
next blank, a text in quotes, or a comma. `feof` becomes true when a read has hit the end, not
before; that read returns `EOF`, which the code keeps in a `char` and treats as a character. A
text whose quote is not closed is read past the end until the buffer is full.

* `getPatternToken_eq_false_iff` — it returns `FALSE` only when the end has been hit before.
* `size_getPatternToken` — every token takes something of the file.
* `Spells` — the texts of a list of tokens, with any blanks between them.
* `getPatternToken_spells` / `getPatternToken_end` — such a text is read token by token, and
  at its end comes a token that is no token of the file.
-/

namespace Vox.Hts

open Mage

/-- Size of the buffers that tokens are read into. -/
def hts_maxbuflen : Nat := 1024

/-- `HTS_File`: what has not been read, and whether a read has hit the end. -/
structure File where
  rest : Str
  feof : Bool
  deriving DecidableEq, Repr

/-- `EOF` in a `char`. -/
def eofChar : Char := 'ÿ'

/-- `HTS_fgetc` -/
def File.fgetc (fp : File) : Char × File :=
  match fp.rest with
  | [] => (eofChar, { fp with feof := true })
  | c :: rest => (c, { fp with rest := rest })

/-- What is left to be read, the end included. -/
def File.size (fp : File) : Nat := fp.rest.length + if fp.feof then 0 else 1

theorem File.size_fgetc_le (fp : File) : fp.fgetc.2.size ≤ fp.size := by
  obtain ⟨rest, feof⟩ := fp
  cases rest with
  | nil => exact Nat.zero_le _
  | cons c rest => exact Nat.add_le_add_right (Nat.le_succ _) _

/-- Before the end, reading makes it shorter. -/
theorem File.size_fgetc_lt {fp : File} (h : fp.feof = false) : fp.fgetc.2.size < fp.size := by
  obtain ⟨rest, feof⟩ := fp
  obtain rfl : feof = false := h
  cases rest with
  | nil => exact Nat.zero_lt_one
  | cons c rest => exact Nat.add_lt_add_right (Nat.lt_succ_self _) _

def isBlank (c : Char) : Bool := c == ' ' || c == '\n'

/-- `while( c == ' ' || c == '\n' )`, which returns `FALSE` at the end. -/
def skipBlanks (c : Char) (fp : File) : Option Char × File :=
  if isBlank c then
    if fp.feof then (none, fp) else skipBlanks fp.fgetc.1 fp.fgetc.2
  else (some c, fp)
termination_by fp.size
decreasing_by exact File.size_fgetc_lt (Bool.eq_false_of_not_eq_true ‹¬ fp.feof = true›)

/-- Whether a character ends the token. -/
def endsToken (squote dquote : Bool) (c : Char) (feof : Bool) : Bool :=
  (squote && c == '\'') || (dquote && c == '\"')
    || (!squote && !dquote && (c == ' ' || c == '\n' || feof))

/-- The loop that fills `buff`, which has an end. -/
def readChars (squote dquote : Bool) (buff : Str) (c : Char) (fp : File) : Option (Str × File) :=
  if buff.length < hts_maxbuflen then
    let next := fp.fgetc.1
    let fp := fp.fgetc.2
    if endsToken squote dquote next fp.feof then
      -- buff[i] = '\0'
      if (buff ++ [c]).length < hts_maxbuflen then some (buff ++ [c], fp) else none
    else readChars squote dquote (buff ++ [c]) next fp
  else none
termination_by hts_maxbuflen - buff.length
decreasing_by
  rw [List.length_append, List.length_singleton]
  omega

/-- `if( c == quote )` -/
def takeQuote (quote c : Char) (fp : File) : Option (Bool × Char × File) :=
  if c = quote then if fp.feof then none else some (true, fp.fgetc.1, fp.fgetc.2)
  else some (false, c, fp)

/-- `HTS_get_pattern_token`, unless it writes behind the buffer. The token is `none` where it
returns `FALSE`. -/
def getPatternToken (fp : File) : Option (Option Str × File) :=
  if fp.feof then some (none, fp)
  else
    match skipBlanks fp.fgetc.1 fp.fgetc.2 with
    | (none, fp) => some (none, fp)
    | (some c, fp) =>
      match takeQuote '\'' c fp with
      | none => some (none, fp)
      | some (squote, c, fp) =>
        match takeQuote '\"' c fp with
        | none => some (none, fp)
        | some (dquote, c, fp) =>
          if c = ',' then some (some [','], fp)
          else (readChars squote dquote [] c fp).map fun (buff, fp) => (some buff, fp)

/-! ## Every token takes something of the file -/

/-- What `fgetc` returns: behind the end, `EOF`. -/
def File.Read (c : Char) (fp : File) : Prop := fp.feof = true → c = eofChar

/-- Before the end, reading gives a character. -/
theorem File.read_fgetc {fp : File} (h : fp.feof = false) : Read fp.fgetc.1 fp.fgetc.2 := by
  obtain ⟨rest, feof⟩ := fp
  obtain rfl : feof = false := h
  cases rest with
  | nil => exact fun _ => rfl
  | cons c rest => exact fun h => nomatch h

/-- A character that is not the end of the file was read before it. -/
theorem File.Read.feof_eq {c : Char} {fp : File} (h : Read c fp) (hc : c ≠ eofChar) :
    fp.feof = false := Bool.eq_false_of_not_eq_true fun hfeof => hc (h hfeof)

/-- `EOF` is no blank, so that the end is not hit between blanks. -/
theorem skipBlanks_some {c : Char} {fp : File} (h : File.Read c fp) :
    ∃ d fp', skipBlanks c fp = (some d, fp') ∧ File.Read d fp' ∧ fp'.size ≤ fp.size := by
  induction c, fp using skipBlanks.induct with
  | case1 c fp hblank hfeof =>
    rw [h hfeof] at hblank
    exact absurd hblank (by decide)
  | case2 c fp hblank hfeof ih =>
    obtain ⟨d, fp', heq, hread, hsize⟩ :=
      ih (File.read_fgetc (Bool.eq_false_of_not_eq_true hfeof))
    refine ⟨d, fp', ?_, hread, hsize.trans fp.size_fgetc_le⟩
    rw [skipBlanks, if_pos hblank, if_neg hfeof, heq]
  | case3 c fp hblank => exact ⟨c, fp, by rw [skipBlanks, if_neg hblank], h, le_rfl⟩

theorem takeQuote_ne {quote c : Char} (h : c ≠ quote) (fp : File) :
    takeQuote quote c fp = some (false, c, fp) := if_neg h

/-- A quote is dropped, and the next character read. -/
theorem takeQuote_self (quote c : Char) (rest : Str) :
    takeQuote quote quote ⟨c :: rest, false⟩ = some (true, c, ⟨rest, false⟩) := if_pos rfl

theorem takeQuote_some {quote c : Char} {fp : File} (hquote : quote ≠ eofChar)
    (h : File.Read c fp) :
    ∃ taken d fp', takeQuote quote c fp = some (taken, d, fp') ∧ File.Read d fp' ∧
      fp'.size ≤ fp.size := by
  by_cases hc : c = quote
  · have hfeof := h.feof_eq (hc ▸ hquote)
    refine ⟨true, fp.fgetc.1, fp.fgetc.2, ?_, File.read_fgetc hfeof, fp.size_fgetc_le⟩
    rw [takeQuote, if_pos hc, if_neg (by simp [hfeof])]
  · exact ⟨false, c, fp, by rw [takeQuote, if_neg hc], h, le_rfl⟩

/-- Reading a token makes the file no longer, and the token fits the buffer. -/
theorem size_readChars {squote dquote : Bool} {buff : Str} {c : Char} {fp : File}
    {t : Str} {fp' : File} (h : readChars squote dquote buff c fp = some (t, fp')) :
    fp'.size ≤ fp.size ∧ t.length < hts_maxbuflen := by
  induction buff, c, fp using readChars.induct squote dquote with
  | case1 buff c fp hroom next fp₁ hend hlast =>
    -- the token ends, and there is room for the end of string
    rw [readChars, if_pos hroom, if_pos hend, if_pos hlast] at h
    obtain ⟨rfl, rfl⟩ := Prod.mk.inj (Option.some.inj h)
    exact ⟨fp.size_fgetc_le, hlast⟩
  | case2 buff c fp hroom next fp₁ hend hlast =>
    rw [readChars, if_pos hroom, if_pos hend, if_neg hlast] at h
    exact nomatch h
  | case3 buff c fp hroom next fp₁ hend ih =>
    -- one character more
    rw [readChars, if_pos hroom, if_neg hend] at h
    obtain ⟨hsize, hlength⟩ := ih h
    exact ⟨hsize.trans fp.size_fgetc_le, hlength⟩
  | case4 buff c fp hroom =>
    rw [readChars, if_neg hroom] at h
    exact nomatch h

/-- Before the end there is a token, which takes something of the file and fits the buffer, or
a token that does not fit. -/
theorem getPatternToken_cases {fp : File} (h : fp.feof = false) :
    getPatternToken fp = none ∨ ∃ t fp', getPatternToken fp = some (some t, fp') ∧
      fp'.size < fp.size ∧ t.length < hts_maxbuflen := by
  have hlt := File.size_fgetc_lt h
  -- blanks, then a quote of either kind, then the characters
  obtain ⟨c, fp₁, hskip, hread, hsize₁⟩ := skipBlanks_some (File.read_fgetc h)
  obtain ⟨squote, c₂, fp₂, hsquote, hread₂, hsize₂⟩ :=
    takeQuote_some (show '\'' ≠ eofChar by decide) hread
  obtain ⟨dquote, c₃, fp₃, hdquote, hread₃, hsize₃⟩ :=
    takeQuote_some (show '\"' ≠ eofChar by decide) hread₂
  unfold getPatternToken
  rw [if_neg (by simp [h]), hskip]
  simp only [hsquote, hdquote]
  split
  · refine Or.inr ⟨[','], fp₃, rfl, by omega, by decide⟩
  · cases hchars : readChars squote dquote [] c₃ fp₃ with
    | none => exact Or.inl rfl
    | some r =>
      obtain ⟨hsize, hlength⟩ := size_readChars hchars
      exact Or.inr ⟨r.1, r.2, rfl, by omega, hlength⟩

/-- **`FALSE` is the end.** -/
theorem getPatternToken_eq_false_iff (fp : File) :
    (∃ fp', getPatternToken fp = some (none, fp')) ↔ fp.feof = true := by
  constructor
  · rintro ⟨fp', h⟩
    by_contra hfeof
    rcases getPatternToken_cases (Bool.eq_false_of_not_eq_true hfeof) with hout | ⟨t, fp₁, ht, -⟩
    · rw [hout] at h
      exact nomatch h
    · rw [ht] at h
      exact nomatch h
  · intro h
    exact ⟨fp, by rw [getPatternToken, if_pos h]⟩

/-- A token that was read is shorter than the buffer and was taken from the file. -/
theorem getPatternToken_eq_some {fp fp' : File} {t : Str}
    (h : getPatternToken fp = some (some t, fp')) :
    fp'.size < fp.size ∧ t.length < hts_maxbuflen := by
  by_cases hfeof : fp.feof = true
  · rw [getPatternToken, if_pos hfeof] at h
    exact nomatch h
  · rcases getPatternToken_cases (Bool.eq_false_of_not_eq_true hfeof) with
      hout | ⟨t', fp₁, ht, hsize, hlength⟩
    · rw [hout] at h
      exact nomatch h
    · rw [ht] at h
      obtain ⟨htoken, rfl⟩ := Prod.mk.inj (Option.some.inj h)
      exact ⟨hsize, Option.some.inj htoken ▸ hlength⟩

/-- **Every token takes something of the file.** -/
theorem size_getPatternToken {fp fp' : File} {t : Str}
    (h : getPatternToken fp = some (some t, fp')) : fp'.size < fp.size :=
  (getPatternToken_eq_some h).1

/-- A token is shorter than the buffer. -/
theorem length_getPatternToken {fp fp' : File} {t : Str}
    (h : getPatternToken fp = some (some t, fp')) : t.length < hts_maxbuflen :=
  (getPatternToken_eq_some h).2

/-- Without a token the file is no longer than before. -/
theorem size_getPatternToken_none {fp fp' : File} (h : getPatternToken fp = some (none, fp')) :
    fp'.size ≤ fp.size := by
  have hfeof := (getPatternToken_eq_false_iff fp).mp ⟨fp', h⟩
  rw [getPatternToken, if_pos hfeof] at h
  obtain ⟨-, rfl⟩ := Prod.mk.inj (Option.some.inj h)
  exact le_rfl

/-! ## The texts of a list of tokens -/

def Blanks (ws : Str) : Prop := ∀ c ∈ ws, isBlank c = true

/-- A token that is written without quotes. -/
structure Bare (t : Str) : Prop where
  noBlank : ∀ c ∈ t, isBlank c = false
  head : ∃ c, t.head? = some c ∧ c ≠ '\'' ∧ c ≠ '\"' ∧ c ≠ ','

instance (t : Str) : Decidable (Bare t) :=
  decidable_of_iff (t.all (fun c => !isBlank c) = true ∧
      t.head?.any (fun c => c ≠ '\'' ∧ c ≠ '\"' ∧ c ≠ ',') = true)
    ⟨fun h => ⟨by simpa using h.1, by simpa [Option.any_eq_true] using h.2⟩,
      fun h => ⟨by simpa using h.noBlank, by simpa [Option.any_eq_true] using h.head⟩⟩

/-- A token that can be written in quotes. -/
structure Quoted (t : Str) : Prop where
  noQuote : '\"' ∉ t
  head : ∃ c, t.head? = some c ∧ c ≠ ','

/-- The texts of a list of tokens. -/
inductive Spells : List Str → Str → Prop
  | done {ws : Str} (hws : Blanks ws) : Spells [] ws
  | bare {ws t rest : Str} {b : Char} {ts : List Str} (hws : Blanks ws) (ht : Bare t)
      (hb : isBlank b = true) (hts : Spells ts rest) : Spells (t :: ts) (ws ++ t ++ b :: rest)
  | quoted {ws t rest : Str} {ts : List Str} (hws : Blanks ws) (ht : Quoted t)
      (hts : Spells ts rest) : Spells (t :: ts) (ws ++ '\"' :: t ++ '\"' :: rest)
  | comma {ws rest : Str} {ts : List Str} (hws : Blanks ws) (hts : Spells ts rest) :
      Spells ([','] :: ts) (ws ++ ',' :: rest)

theorem Blanks.cons {b : Char} {ws : Str} (hb : isBlank b = true) (hws : Blanks ws) :
    Blanks (b :: ws) := by
  intro c hc
  rcases List.mem_cons.mp hc with rfl | hc
  · exact hb
  · exact hws c hc

/-- Blanks before a text change nothing. -/
theorem Spells.cons_blank {ts : List Str} {text : Str} {b : Char} (hb : isBlank b = true)
    (h : Spells ts text) : Spells ts (b :: text) := by
  cases h with
  | done hws => exact .done (hws.cons hb)
  | bare hws ht hb' hts => exact .bare (hws.cons hb) ht hb' hts
  | quoted hws ht hts => exact .quoted (hws.cons hb) ht hts
  | comma hws hts => exact .comma (hws.cons hb) hts

/-- Tokens with a blank behind each. -/
theorem spells_flatMap {ts : List Str} (h : ∀ t ∈ ts, Bare t ∨ t = [',']) :
    Spells ts (ts.flatMap fun t => t ++ [' ']) := by
  have hnil : Blanks [] := fun c hc => absurd hc List.not_mem_nil
  induction ts with
  | nil => exact .done hnil
  | cons t ts ih =>
    have hrest := ih fun t' ht' => h t' (List.mem_cons_of_mem t ht')
    rw [List.flatMap_cons, List.append_assoc, List.singleton_append]
    rcases h t List.mem_cons_self with ht | rfl
    · have hbare : Spells (t :: ts) ([] ++ t ++ ' ' :: ts.flatMap fun t => t ++ [' ']) :=
        .bare hnil ht (by decide) hrest
      exact hbare
    · have hcomma : Spells ([','] :: ts) ([] ++ ',' :: ' ' :: ts.flatMap fun t => t ++ [' ']) :=
        .comma hnil (hrest.cons_blank (by decide))
      exact hcomma

/-- Blanks are skipped. -/
theorem skipBlanks_blanks {ws : Str} (hws : Blanks ws) {d : Char} (hd : isBlank d = false)
    (rest : Str) :
    skipBlanks (File.fgetc ⟨ws ++ d :: rest, false⟩).1 (File.fgetc ⟨ws ++ d :: rest, false⟩).2
      = (some d, ⟨rest, false⟩) := by
  induction ws with
  | nil =>
    show skipBlanks d ⟨rest, false⟩ = _
    rw [skipBlanks, if_neg (by simp [hd])]
  | cons w ws ih =>
    show skipBlanks w ⟨ws ++ d :: rest, false⟩ = _
    rw [skipBlanks, if_pos (hws w List.mem_cons_self), if_neg (by simp)]
    exact ih fun c hc => hws c (List.mem_cons_of_mem w hc)

/-- The characters up to the one that ends the token. -/
theorem readChars_eq {squote dquote : Bool} {t : Str} (e : Char) (rest : Str)
    (ht : ∀ c ∈ t, endsToken squote dquote c false = false)
    (he : endsToken squote dquote e false = true) (buff : Str) (c : Char)
    (hroom : (buff ++ c :: t).length < hts_maxbuflen) :
    readChars squote dquote buff c ⟨t ++ e :: rest, false⟩
      = some (buff ++ c :: t, ⟨rest, false⟩) := by
  induction t generalizing buff c with
  | nil =>
    rw [readChars, if_pos (by simp at hroom; omega)]
    show (if endsToken squote dquote e false then _ else _) = _
    rw [if_pos he, if_pos hroom]
    rfl
  | cons d t ih =>
    rw [readChars, if_pos (by simp at hroom; omega)]
    show (if endsToken squote dquote d false then _
      else readChars squote dquote (buff ++ [c]) d ⟨t ++ e :: rest, false⟩) = _
    rw [if_neg (by simp [ht d List.mem_cons_self]),
      ih (fun x hx => ht x (List.mem_cons_of_mem d hx)) (buff ++ [c]) d (by simpa using hroom),
      List.append_assoc, List.singleton_append]

/-- **A text is read token by token.** -/
theorem getPatternToken_spells {t : Str} {ts : List Str} {text : Str}
    (h : Spells (t :: ts) text) (hlength : t.length < hts_maxbuflen) :
    ∃ rest, getPatternToken ⟨text, false⟩ = some (some t, ⟨rest, false⟩) ∧ Spells ts rest := by
  unfold getPatternToken
  rw [if_neg (by simp)]
  cases h with
  | @bare ws _ rest b _ hws ht hb hts =>
    -- a bare token, up to the blank behind it
    obtain ⟨c, hc, hsquote, hdquote, hcomma⟩ := ht.head
    obtain ⟨t, rfl⟩ : ∃ t', t = c :: t' := by
      cases t with
      | nil => simp at hc
      | cons d t => exact ⟨t, by simpa using hc⟩
    have hblank := ht.noBlank c List.mem_cons_self
    refine ⟨rest, ?_, hts⟩
    rw [List.append_assoc, List.cons_append, skipBlanks_blanks hws hblank]
    simp only [takeQuote_ne hsquote, takeQuote_ne hdquote, if_neg hcomma]
    rw [readChars_eq b rest ?_ ?_ [] c hlength]
    · rfl
    · intro d hd
      have := ht.noBlank d (List.mem_cons_of_mem c hd)
      simpa [endsToken, isBlank] using this
    · simpa [endsToken, isBlank] using hb
  | @quoted ws _ rest _ hws ht hts =>
    -- a quoted token, up to the closing quote
    obtain ⟨c, hc, hcomma⟩ := ht.head
    obtain ⟨t, rfl⟩ : ∃ t', t = c :: t' := by
      cases t with
      | nil => simp at hc
      | cons d t => exact ⟨t, by simpa using hc⟩
    refine ⟨rest, ?_, hts⟩
    rw [List.append_assoc, List.cons_append, skipBlanks_blanks hws (by decide)]
    simp only [takeQuote_ne (show '\"' ≠ '\'' by decide), List.cons_append, takeQuote_self,
      if_neg hcomma]
    rw [readChars_eq '\"' rest ?_ (by decide) [] c hlength]
    · rfl
    · intro d hd
      have hne : d ≠ '\"' := fun h => ht.noQuote (h ▸ List.mem_cons_of_mem c hd)
      simpa [endsToken] using hne
  | @comma ws rest _ hws hts =>
    refine ⟨rest, ?_, hts⟩
    -- a comma is a token of its own
    rw [skipBlanks_blanks hws (by decide)]
    rfl

/-- Behind the last token the end of the file is read as one. -/
theorem getPatternToken_end {text : Str} (h : Spells [] text) :
    getPatternToken ⟨text, false⟩ = some (some [eofChar], ⟨[], true⟩) := by
  cases h with
  | done hws =>
    -- the blanks at the end are skipped, up to the end of the file
    have hskip : skipBlanks (File.fgetc ⟨text, false⟩).1 (File.fgetc ⟨text, false⟩).2
        = (some eofChar, ⟨[], true⟩) := by
      induction text with
      | nil =>
        show skipBlanks eofChar ⟨[], true⟩ = _
        rw [skipBlanks, if_neg (by decide)]
      | cons w ws ih =>
        show skipBlanks w ⟨ws, false⟩ = _
        rw [skipBlanks, if_pos (hws w List.mem_cons_self), if_neg (by simp)]
        exact ih fun c hc => hws c (List.mem_cons_of_mem w hc)
    unfold getPatternToken
    rw [if_neg (by simp), hskip]
    simp only [takeQuote_ne (show eofChar ≠ '\'' by decide),
      takeQuote_ne (show eofChar ≠ '\"' by decide), if_neg (show eofChar ≠ ',' by decide)]
    rw [readChars, if_pos (by decide)]
    rfl

end Vox.Hts
