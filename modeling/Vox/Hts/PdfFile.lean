import Mathlib.Data.List.GetD
import Vox.Hts.ModelFile
import Vox.Lib.Format

/-!
# hts_engine — pdf files

`HTS_Model_load_pdf` reads means, variances and the weights of multi-space distributions from a
file of big endian numbers. When the file ends too early it goes on with what `temp` holds and
returns `FALSE` at last; a value out of its range ends the process before that. A read that
leaves a number undetermined is a memory error (`outOfBounds`) where the number is looked at.

A `float` is any type `α` with a function from the bits; `outside` is the test of a weight.

* `modelLoadPdf_eq_done_iff` — what is accepted, and where each number of a model is in the
  file.
-/

namespace Vox.Hts

open Lib Mage

/-! ## Words -/

abbrev Bytes := List UInt8

/-- The loop of `HTS_byte_swap` over the bytes of an item. -/
def swapItem (size : Nat) (q : Bytes) : Bytes :=
  (List.range (size / 2)).foldl
    (fun q j => (q.set j (q.getD (size - 1 - j) 0)).set (size - 1 - j) (q.getD j 0)) q

/-- `HTS_byte_swap` -/
def byteSwap (size : Nat) : Nat → Bytes → Bytes
  | 0, _ => []
  | block + 1, q => swapItem size (q.take size) ++ byteSwap size block (q.drop size)

/-- Four bytes in the memory of a little endian machine. -/
def littleEndian (q : Bytes) : BitVec 32 :=
  (q.getD 3 0).toBitVec ++ (q.getD 2 0).toBitVec ++ (q.getD 1 0).toBitVec ++ (q.getD 0 0).toBitVec

/-- The items that `fread` has stored, what it has stored of an incomplete one, and what is left
in the file. -/
structure Fread where
  items : List (BitVec 32)
  part : Bytes
  rest : Bytes
  deriving DecidableEq, Repr

/-- `HTS_fread_big_endian` of items with four bytes. -/
def freadBigEndian (num : Nat) (fp : Bytes) : Fread :=
  let block := min num (fp.length / 4)
  let p := byteSwap 4 block (fp.take (4 * block))
  let items := (List.range block).map fun i => littleEndian ((p.drop (4 * i)).take 4)
  if block = num then ⟨items, [], fp.drop (4 * block)⟩ else ⟨items, fp.drop (4 * block), []⟩

/-- Word `i` of a text of big endian numbers. -/
def word (text : Bytes) (i : Nat) : BitVec 32 :=
  (text.getD (4 * i) 0).toBitVec ++ (text.getD (4 * i + 1) 0).toBitVec
    ++ (text.getD (4 * i + 2) 0).toBitVec ++ (text.getD (4 * i + 3) 0).toBitVec

/-- A word that lies in the front part does not see what follows it. -/
theorem word_append_left {text : Bytes} {i : Nat} (h : 4 * i + 4 ≤ text.length) (rest : Bytes) :
    word (text ++ rest) i = word text i := by
  unfold word
  rw [List.getD_append _ _ _ _ (by omega), List.getD_append _ _ _ _ (by omega),
    List.getD_append _ _ _ _ (by omega), List.getD_append _ _ _ _ (by omega)]

/-- Behind a front part of whole words the words are those of the rest. -/
theorem word_append_right {text : Bytes} {n : Nat} (h : text.length = 4 * n) (rest : Bytes)
    (i : Nat) : word (text ++ rest) (n + i) = word rest i := by
  unfold word
  rw [List.getD_append_right _ _ _ _ (by omega), List.getD_append_right _ _ _ _ (by omega),
    List.getD_append_right _ _ _ _ (by omega), List.getD_append_right _ _ _ _ (by omega)]
  rw [show 4 * (n + i) - text.length = 4 * i by omega,
    show 4 * (n + i) + 1 - text.length = 4 * i + 1 by omega,
    show 4 * (n + i) + 2 - text.length = 4 * i + 2 by omega,
    show 4 * (n + i) + 3 - text.length = 4 * i + 3 by omega]

theorem word_take {text : Bytes} {i n : Nat} (h : 4 * i + 4 ≤ n) :
    word (text.take n) i = word text i := by
  unfold word
  simp only [List.getD_eq_getElem?_getD]
  rw [List.getElem?_take_of_lt (by omega), List.getElem?_take_of_lt (by omega),
    List.getElem?_take_of_lt (by omega), List.getElem?_take_of_lt (by omega)]

/-- Dropping whole words shifts the numbers of the words. -/
theorem word_drop (text : Bytes) (n i : Nat) :
    word (text.drop (4 * n)) i = word text (n + i) := by
  unfold word
  simp only [List.getD_eq_getElem?_getD, List.getElem?_drop, Nat.mul_add, Nat.add_assoc]

/-- The words of the `k`-th block are words of the text, `k` blocks on. -/
theorem word_chunk (size : Nat) (text : Bytes) (k : Nat) {i : Nat} (hi : i < size) :
    word (chunk (4 * size) text k) i = word text (k * size + i) := by
  rw [chunk, word_take (by omega), Nat.mul_left_comm, word_drop]

/-- Swapped and read as little endian, an item is what its bytes say as big endian. -/
theorem items_eq (block : Nat) (q : Bytes) (h : 4 * block ≤ q.length) :
    ((List.range block).map fun i =>
        littleEndian (((byteSwap 4 block (q.take (4 * block))).drop (4 * i)).take 4))
      = (List.range block).map (word q) := by
  induction block generalizing q with
  | zero => rfl
  | succ block ih =>
    -- four bytes of the file are one item, in the other order in memory
    obtain ⟨a, b, c, d, q, rfl⟩ : ∃ a b c d q', q = a :: b :: c :: d :: q' := by
      match q, h with
      | a :: b :: c :: d :: q, _ => exact ⟨a, b, c, d, q, rfl⟩
    have hq : 4 * block ≤ q.length := by
      simp only [List.length_cons] at h
      omega
    have hrest := ih q hq
    have htake : (a :: b :: c :: d :: q).take (4 * (block + 1))
        = a :: b :: c :: d :: q.take (4 * block) := rfl
    rw [List.range_succ_eq_map, List.map_cons, List.map_map, List.map_cons, List.map_map, htake]
    refine congrArg₂ List.cons rfl ?_
    rw [List.map_inj_left] at hrest ⊢
    intro i hi
    have hi' := hrest i hi
    show littleEndian ((([d, c, b, a] ++ byteSwap 4 block (q.take (4 * block))).drop
      (4 * (i + 1))).take 4) = word ([a, b, c, d] ++ q) (i + 1)
    -- behind the first item everything is one word on
    rw [Nat.add_comm i 1, word_append_right (show [a, b, c, d].length = 4 * 1 from rfl),
      Nat.mul_add, ← List.drop_drop]
    exact hi'

/-- What is read when there is enough. -/
theorem freadBigEndian_append {num : Nat} {text : Bytes} (h : text.length = 4 * num)
    (rest : Bytes) :
    freadBigEndian num (text ++ rest) = ⟨(List.range num).map (word text), [], rest⟩ := by
  have hblock : min num ((text ++ rest).length / 4) = num := by
    rw [List.length_append, h]
    omega
  unfold freadBigEndian
  simp only [hblock, if_true]
  rw [items_eq num (text ++ rest) (by rw [List.length_append]; omega), ← h, List.drop_left]
  congr 1
  rw [List.map_inj_left]
  intro i hi
  rw [List.mem_range] at hi
  exact word_append_left (by omega) rest

/-- A file that is too short gives fewer items than asked for, and is at its end. -/
theorem freadBigEndian_short {num : Nat} {fp : Bytes} (h : fp.length < 4 * num) :
    ∃ items part, freadBigEndian num fp = ⟨items, part, []⟩ ∧ items.length < num := by
  have hblock : min num (fp.length / 4) = fp.length / 4 := by omega
  unfold freadBigEndian
  simp only [hblock, if_neg (show ¬ fp.length / 4 = num by omega)]
  exact ⟨_, _, rfl, by simp only [List.length_map, List.length_range]; omega⟩

/-! ## The loader -/

/-- A loop over items, in which a value is carried on. -/
def forEach {ι σ γ : Type*} (f : ι → γ → σ → Outcome (γ × σ)) : List ι → γ → σ → Outcome (γ × σ)
  | [], a, s => .done (a, s)
  | x :: xs, a, s => (f x a s).bind fun (a, s) => forEach f xs a s

/-- The file, and the variables `temp` and `result`. `temp` may be undetermined. -/
structure PdfReader (α : Type*) where
  fp : Bytes
  temp : Option α
  result : Bool

/-- The pdfs of a model. Trees are counted from 2 on and pdfs from 1 on; here they are lists. An
array is a function of its index. -/
structure PdfModel (α : Type*) where
  vector_length : Nat
  npdf : List Nat
  pdf : List (List (Nat → α))

section Loader

variable {α : Type*} [Zero α] (float : BitVec 32 → α) (outside : α → Bool)

/-- `if( HTS_fread_big_endian( &temp, sizeof( float ), 1, fp ) != 1 ) result = FALSE;` -/
def readFloat (s : PdfReader α) : PdfReader α :=
  match freadBigEndian 1 s.fp with
  | ⟨w :: _, _, rest⟩ => { s with fp := rest, temp := some (float w) }
  | ⟨[], part, rest⟩ =>
    { fp := rest, temp := if part = [] then s.temp else none, result := false }

/-- A float that goes to place `i` of an array of `size` numbers. Where it is undetermined,
`result` is `FALSE`. -/
def storeFloat (size i : Nat) (row : Nat → α) (s : PdfReader α) :
    Outcome ((Nat → α) × PdfReader α) :=
  let s := readFloat float s
  if i < size then .done (Function.update row i (s.temp.getD 0), s) else .outOfBounds

/-- A mean and a variance. -/
def storePair (size vector_length i : Nat) (row : Nat → α) (s : PdfReader α) :
    Outcome ((Nat → α) × PdfReader α) :=
  (storeFloat float size i row s).bind fun (row, s) =>
    storeFloat float size (i + vector_length) row s

/-- The turn of the loop over `m`. -/
def storeSpacePair (ssize vector_length l m : Nat) (row : Nat → α) (s : PdfReader α) :
    Outcome ((Nat → α) × PdfReader α) :=
  if ((l * vector_length : Nat) : Int) ≤ intMax then
    storePair float (2 * vector_length + 1) vector_length (l * vector_length / ssize + m) row s
  else .outOfBounds

/-- `HTS_error( 1, "HTS_Model_load_pdf: MSD weight …" )` -/
def wrongWeight : Exit :=
  .error "HTS_Model_load_pdf: MSD weight should be within 0.0 to 1.0.\n".toList

/-- The weight of space `l`, which counts where `l` is 0. -/
def storeWeight (vector_length l : Nat) (row : Nat → α) (s : PdfReader α) :
    Outcome ((Nat → α) × PdfReader α) :=
  let s := readFloat float s
  if l = 0 then
    match s.temp with
    | none => .outOfBounds
    | some temp =>
      if outside temp then .exited wrongWeight
      else .done (Function.update row (2 * vector_length) temp, s)
  else .done (row, s)

/-- The turn of the loop over `l`. The second weight of a space is read and not used. -/
def storeSpace (ssize vector_length l : Nat) (row : Nat → α) (s : PdfReader α) :
    Outcome ((Nat → α) × PdfReader α) :=
  (forEach (storeSpacePair float ssize vector_length l) (List.range (vector_length / ssize)) row
      s).bind fun (row, s) =>
    (storeWeight float outside vector_length l row s).bind fun (row, s) =>
      .done (row, readFloat float s)

/-- `model->pdf[j][k]` -/
def loadRow (msd_flag : Bool) (ssize vector_length : Nat) (s : PdfReader α) :
    Outcome ((Nat → α) × PdfReader α) :=
  if ((2 * vector_length + 1 : Nat) : Int) ≤ intMax then
    if msd_flag then
      forEach (storeSpace float outside ssize vector_length) (List.range ssize) 0 s
    else
      forEach (storePair float (2 * vector_length) vector_length) (List.range vector_length) 0 s
  else .outOfBounds

/-- `model->pdf[j]` -/
def loadRows (msd_flag : Bool) (ssize vector_length npdf : Nat) (s : PdfReader α) :
    Outcome (List (Nat → α) × PdfReader α) :=
  forEach (fun _ rows s =>
    (loadRow float outside msd_flag ssize vector_length s).bind fun (row, s) =>
      .done (rows ++ [row], s)) (List.range npdf) [] s

/-- `model->pdf` -/
def loadTables (msd_flag : Bool) (ssize vector_length : Nat) (npdf : List Nat)
    (s : PdfReader α) : Outcome (List (List (Nat → α)) × PdfReader α) :=
  forEach (fun npdf tables s =>
    (loadRows float outside msd_flag ssize vector_length npdf s).bind fun (table, s) =>
      .done (tables ++ [table], s)) npdf [] s

/-- An `int` of the header, into a variable that may be set before. At the end of the file a
variable keeps its value; one that is not set, or of which some bytes are read, has none. -/
def readInt (before : Option Int) (fp : Bytes) : Outcome (Int × Bytes) :=
  match freadBigEndian 1 fp, before with
  | ⟨w :: _, _, rest⟩, _ => .done (w.toInt, rest)
  | ⟨[], [], rest⟩, some i => .done (i, rest)
  | ⟨[], _, _⟩, _ => .outOfBounds

/-- `HTS_error( 1, "HTS_Model_load_pdf: # of pdfs at %d-th state …" )` -/
def wrongNumber (i : Nat) : Exit :=
  .error ("HTS_Model_load_pdf: # of pdfs at ".toList ++ (toString i).toList
    ++ "-th state should be positive.\n".toList)

/-- The numbers of pdfs. A number that is not in the file is 0, but for one of which some bytes
are. -/
def readNumbers (ntree : Nat) (fp : Bytes) : Outcome (List Nat × Bytes) :=
  let read := freadBigEndian ntree fp
  let npdf := read.items.map BitVec.toInt
  match npdf.findIdx? (· ≤ 0) with
  | some i => .exited (wrongNumber (i + 2))
  | none =>
    if npdf.length = ntree then .done (npdf.map Int.toNat, read.rest)
    else if read.part = [] then .exited (wrongNumber (npdf.length + 2))
    else .outOfBounds

def wrongHeader : Exit :=
  .error "HTS_Model_load_pdf: Failed to load header of pdfs.\n".toList

/-- `HTS_Model_load_pdf` -/
def modelLoadPdf (fp : Bytes) (ntree : Nat) (msd_flag : Bool) :
    Outcome (Option (PdfModel α) × Bytes) :=
  if ntree = 0 then
    .exited (.error "HTS_Model_load_pdf: File for pdfs is not specified.\n".toList)
  else
    (readInt none fp).bind fun (i, fp) =>
      if (i ≠ 0 ∨ msd_flag ≠ false) ∧ (i ≠ 1 ∨ msd_flag ≠ true) then .exited wrongHeader
      else
        (readInt none fp).bind fun (ssize, fp) =>
          if ssize < 1 then .exited wrongHeader
          else
            -- `HTS_Model_initialize` has set it to zero
            (readInt (some 0) fp).bind fun (vector_length, fp) =>
              if vector_length ≤ 0 then
                .exited (.error ("HTS_Model_load_pdf: # of HMM states ".toList
                  ++ (toString vector_length).toList ++ " should be positive.\n".toList))
              else
                (readNumbers ntree fp).bind fun (npdf, fp) =>
                  (loadTables float outside msd_flag ssize.toNat vector_length.toNat npdf
                      ⟨fp, none, true⟩).bind fun (pdf, s) =>
                    if s.result then .done (some ⟨vector_length.toNat, npdf, pdf⟩, s.fp)
                    else .done (none, s.fp)

end Loader

/-! ## Reading on while there is enough -/

section Accepts

variable {α γ δ ι : Type*}

/-- A piece of the loader against the texts that it takes while `result` is `TRUE`. -/
abbrev Accepts (run : PdfReader α → Outcome (γ × PdfReader α)) (format : Bytes → γ → Prop) :
    Prop :=
  Reads PdfReader.fp (fun s => s.result = true) (fun s v s' => run s = .done (v, s')) format

/-- Two readers one after the other read one format after the other. -/
theorem Accepts.bind {run : PdfReader α → Outcome (γ × PdfReader α)} {format : Bytes → γ → Prop}
    {next : γ → PdfReader α → Outcome (δ × PdfReader α)} {format' : γ → Bytes → δ → Prop}
    (h : Accepts run format) (h' : ∀ u, Accepts (next u) (format' u)) :
    Accepts (fun s => (run s).bind fun (u, s) => next u s) fun text v =>
      ∃ text₁ text₂ u, text = text₁ ++ text₂ ∧ format text₁ u ∧ format' u text₂ v := by
  refine Reads.congr (Reads.bind h h') (fun s v s' => ?_) fun _ _ => Iff.rfl
  rw [Outcome.bind_eq_done]
  constructor
  · rintro ⟨⟨u, s₁⟩, hrun, hnext⟩
    exact ⟨u, s₁, hrun, hnext⟩
  · rintro ⟨u, s₁, hrun, hnext⟩
    exact ⟨(u, s₁), hrun, hnext⟩

/-- The format may be written differently. -/
theorem Accepts.format {run : PdfReader α → Outcome (γ × PdfReader α)}
    {format format' : Bytes → γ → Prop} (h : Accepts run format)
    (hformat : ∀ text v, format' text v ↔ format text v) : Accepts run format' :=
  Reads.congr h (fun _ _ _ => Iff.rfl) hformat

/-- A loop of reads ends when every one of its rounds does. -/
theorem forEach_eq_done {f : ι → γ → PdfReader α → Outcome (γ × PdfReader α)} {xs : List ι}
    {a v : γ} {s s' : PdfReader α} :
    forEach f xs a s = .done (v, s') ↔
      loopRun (fun x a s v s' => f x a s = .done (v, s')) xs a s v s' := by
  induction xs generalizing a s with
  | nil =>
    rw [forEach, loopRun, Outcome.done.injEq, Prod.mk.injEq]
    exact ⟨fun h => ⟨h.1.symm, h.2.symm⟩, fun h => ⟨h.1.symm, h.2.symm⟩⟩
  | cons x xs ih =>
    rw [forEach, loopRun, Outcome.bind_eq_done]
    constructor
    · rintro ⟨⟨a₁, s₁⟩, hx, hxs⟩
      exact ⟨a₁, s₁, hx, ih.mp hxs⟩
    · rintro ⟨a₁, s₁, hx, hxs⟩
      exact ⟨(a₁, s₁), hx, ih.mpr hxs⟩

/-- A loop reads the texts of its rounds in a row. -/
theorem accepts_forEach {f : ι → γ → PdfReader α → Outcome (γ × PdfReader α)}
    {format : ι → γ → Bytes → γ → Prop} (xs : List ι)
    (h : ∀ x ∈ xs, ∀ a, Accepts (f x a) (format x a)) (a : γ) :
    Accepts (forEach f xs a) (loopText format xs a) :=
  Reads.congr (Reads.loop h a) (fun _ _ _ => forEach_eq_done) fun _ _ => Iff.rfl

end Accepts

section Formats

variable {α : Type*} [Zero α] (float : BitVec 32 → α) {outside : α → Bool}

omit [Zero α] in
theorem readFloat_append {text : Bytes} (h : text.length = 4) (rest : Bytes) (temp : Option α)
    (result : Bool) :
    readFloat float ⟨text ++ rest, temp, result⟩ = ⟨rest, some (float (word text 0)), result⟩ := by
  rw [readFloat, freadBigEndian_append (by omega)]
  rfl

omit [Zero α] in
/-- Either there is a float, or `result` becomes `FALSE`. -/
theorem readFloat_cases (s : PdfReader α) :
    (∃ text rest, s.fp = text ++ rest ∧ text.length = 4 ∧
        readFloat float s = ⟨rest, some (float (word text 0)), s.result⟩) ∨
      (readFloat float s).result = false := by
  by_cases hlength : 4 ≤ s.fp.length
  · refine Or.inl ⟨s.fp.take 4, s.fp.drop 4, (List.take_append_drop 4 _).symm, ?_, ?_⟩
    · rw [List.length_take]
      omega
    · have hfour : (s.fp.take 4).length = 4 := by
        rw [List.length_take]
        omega
      have := readFloat_append float hfour (s.fp.drop 4) s.temp s.result
      rwa [List.take_append_drop] at this
  · right
    -- the end of the file: no item comes, and the result turns false
    obtain ⟨items, part, hread, hitems⟩ :=
      freadBigEndian_short (show s.fp.length < 4 * 1 by omega)
    obtain rfl : items = [] := List.length_eq_zero_iff.mp (by omega)
    rw [readFloat, hread]

omit [Zero α] in
/-- A float and what is done with it. -/
theorem accepts_readFloat {γ : Type*} {run : PdfReader α → Outcome (γ × PdfReader α)}
    {format : Bytes → γ → Prop} (next : Option α → Option γ)
    (hrun : ∀ s v s', run s = .done (v, s') ↔
      s' = readFloat float s ∧ next (readFloat float s).temp = some v)
    (hformat : ∀ text v, format text v ↔
      text.length = 4 ∧ next (some (float (word text 0))) = some v) : Accepts run format where
  complete := by
    rintro ⟨fp, temp, result⟩ text rest v hok heq hv
    -- the text is in front of the file: the number is its word
    obtain ⟨hlength, hnext⟩ := (hformat text v).mp hv
    obtain rfl : fp = text ++ rest := heq
    have hread := readFloat_append float hlength rest temp result
    refine ⟨_, (hrun _ _ _).mpr ⟨rfl, by rw [hread]; exact hnext⟩, ?_, ?_⟩
    · rw [hread]
      exact hok
    · rw [hread]
  sound := by
    intro s v s' hs' hok
    obtain ⟨rfl, hnext⟩ := (hrun s v s').mp hs'
    -- from the end: a true result says that four bytes were there
    rcases readFloat_cases float s with ⟨text, rest, hfp, hlength, hread⟩ | hfail
    · rw [hread] at hok hnext ⊢
      exact ⟨hok, text, hfp, (hformat text v).mpr ⟨hlength, hnext⟩⟩
    · rw [hfail] at hok
      exact nomatch hok

variable {float}

/-- `model->pdf[j][k][i]` is read from four bytes. -/
theorem accepts_storeFloat {size i : Nat} (hi : i < size) (row : Nat → α) :
    Accepts (storeFloat float size i row) fun text row' =>
      text.length = 4 ∧ row' = Function.update row i (float (word text 0)) := by
  refine accepts_readFloat float
    (fun temp => some (Function.update row i (temp.getD 0))) (fun s v s' => ?_) fun text v => ?_
  · rw [storeFloat, if_pos hi, Outcome.done.injEq, Prod.mk.injEq, Option.some.injEq]
    exact ⟨fun h => ⟨h.2.symm, h.1⟩, fun h => ⟨h.2, h.1.symm⟩⟩
  · rw [Option.getD_some, Option.some.injEq, eq_comm (a := v)]

/-- A mean and a variance lie next to each other in the file, `vector_length` apart in the row. -/
theorem accepts_storePair {size vector_length i : Nat} (hi : i + vector_length < size)
    (row : Nat → α) :
    Accepts (storePair float size vector_length i row) fun text row' => text.length = 8 ∧
      row' = Function.update (Function.update row i (float (word text 0))) (i + vector_length)
        (float (word text 1)) := by
  refine Accepts.format (Accepts.bind (accepts_storeFloat (show i < size by omega) row)
    fun row => accepts_storeFloat hi row) fun text v => ?_
  constructor
  · rintro ⟨hlength, rfl⟩
    -- eight bytes are cut after the mean
    refine ⟨text.take 4, text.drop 4, _, (List.take_append_drop 4 text).symm, ⟨?_, rfl⟩, ?_, ?_⟩
    · rw [List.length_take]
      omega
    · rw [List.length_drop]
      omega
    · rw [word_take (by omega), word_drop text 1 0]
  · rintro ⟨text₁, text₂, row₁, rfl, ⟨hlength₁, rfl⟩, hlength₂, rfl⟩
    refine ⟨by rw [List.length_append]; omega, ?_⟩
    -- and two texts are put together: the variance is the second word
    rw [word_append_left (by omega), word_append_right (n := 1) (by omega) text₂ 0]

/-! ## Where the numbers of a pdf go -/

variable (float outside)

/-- The words that a space takes. -/
def spaceWords (ssize vector_length : Nat) : Nat := 2 * (vector_length / ssize) + 2

/-- The words that a pdf takes. -/
def rowWords (msd_flag : Bool) (ssize vector_length : Nat) : Nat :=
  if msd_flag then ssize * spaceWords ssize vector_length else 2 * vector_length

/-- Pairs that are stored from place `i` on. -/
def putPairs (vector_length i n : Nat) (text : Bytes) (row : Nat → α) : Nat → α :=
  (List.range n).foldl (fun row m => Function.update
    (Function.update row (i + m) (float (word text (2 * m)))) (i + m + vector_length)
      (float (word text (2 * m + 1)))) row

def putSpace (ssize vector_length l : Nat) (text : Bytes) (row : Nat → α) : Nat → α :=
  let row := putPairs float vector_length (l * vector_length / ssize) (vector_length / ssize)
    text row
  if l = 0 then
    Function.update row (2 * vector_length) (float (word text (2 * (vector_length / ssize))))
  else row

def putRow (msd_flag : Bool) (ssize vector_length : Nat) (text : Bytes) : Nat → α :=
  if msd_flag then
    (List.range ssize).foldl (fun row l => putSpace float ssize vector_length l
      (chunk (4 * spaceWords ssize vector_length) text l) row) 0
  else putPairs float vector_length 0 vector_length text 0

/-- The products are no larger than an `int`, and the weight is one. -/
def SpaceFits (ssize vector_length l : Nat) (text : Bytes) : Prop :=
  (0 < vector_length / ssize → ((l * vector_length : Nat) : Int) ≤ intMax) ∧
    (l = 0 → outside (float (word text (2 * (vector_length / ssize)))) = false)

def RowFits (msd_flag : Bool) (ssize vector_length : Nat) (text : Bytes) : Prop :=
  ((2 * vector_length + 1 : Nat) : Int) ≤ intMax ∧
    (msd_flag = true → ∀ l < ssize, SpaceFits float outside ssize vector_length l
      (chunk (4 * spaceWords ssize vector_length) text l))

variable {float outside}

/-- Spaces are next to each other. -/
theorem place_add_le (ssize vector_length l : Nat) :
    l * vector_length / ssize + vector_length / ssize ≤ (l + 1) * vector_length / ssize := by
  rw [Nat.add_mul, Nat.one_mul]
  exact Nat.div_add_div_le_add_div

/-- The coefficients of a space end within the row. -/
theorem place_end_le {ssize l : Nat} (hl : l < ssize) (vector_length : Nat) :
    l * vector_length / ssize + vector_length / ssize ≤ vector_length := by
  calc l * vector_length / ssize + vector_length / ssize
      ≤ (l + 1) * vector_length / ssize := place_add_le ssize vector_length l
    _ ≤ ssize * vector_length / ssize := Nat.div_le_div_right (Nat.mul_le_mul_right _ hl)
    _ = vector_length := Nat.mul_div_cancel_left _ (by omega)

/-- One coefficient of a space; the index is a product of ints, which has to fit. -/
theorem accepts_storeSpacePair {ssize vector_length l m : Nat} (hl : l < ssize)
    (hm : m < vector_length / ssize) (row : Nat → α) :
    Accepts (storeSpacePair float ssize vector_length l m row) fun text row' =>
      text.length = 8 ∧ ((l * vector_length : Nat) : Int) ≤ intMax ∧
        row' = Function.update (Function.update row (l * vector_length / ssize + m)
            (float (word text 0))) (l * vector_length / ssize + m + vector_length)
          (float (word text 1)) := by
  -- the place is within the `2 * vector_length + 1` cells of the row
  have hplace := place_end_le hl vector_length
  by_cases hfits : ((l * vector_length : Nat) : Int) ≤ intMax
  · have hpair := @accepts_storePair α _ float (2 * vector_length + 1) vector_length
      (l * vector_length / ssize + m) (by omega) row
    refine Reads.congr hpair (fun s v s' => ?_) fun text v => ?_
    · rw [storeSpacePair, if_pos hfits]
    · rw [and_iff_right hfits]
  · constructor
    · rintro s text rest v - - ⟨-, h, -⟩
      -- a product that overflows never returns, and the format has no text for it
      exact absurd h hfits
    · intro s v s' h
      rw [storeSpacePair, if_neg hfits] at h
      exact nomatch h

omit [Zero α] in
theorem accepts_storeWeight {vector_length l : Nat} (row : Nat → α) :
    Accepts (storeWeight float outside vector_length l row) fun text row' => text.length = 4 ∧
      (l = 0 → outside (float (word text 0)) = false) ∧
      row' = if l = 0 then Function.update row (2 * vector_length) (float (word text 0))
        else row := by
  refine accepts_readFloat float (fun temp => if l = 0 then
      match temp with
      | none => none
      | some temp =>
        if outside temp then none else some (Function.update row (2 * vector_length) temp)
    else some row) (fun s v s' => ?_) fun text v => ?_
  · unfold storeWeight
    dsimp only
    split
    · cases (readFloat float s).temp with
      | none => simp
      | some temp =>
        dsimp only
        split
        · simp
        · rw [Outcome.done.injEq, Prod.mk.injEq, Option.some.injEq]
          exact ⟨fun h => ⟨h.2.symm, h.1⟩, fun h => ⟨h.2, h.1.symm⟩⟩
    · rw [Outcome.done.injEq, Prod.mk.injEq, Option.some.injEq]
      exact ⟨fun h => ⟨h.2.symm, h.1⟩, fun h => ⟨h.2, h.1.symm⟩⟩
  -- only the first space keeps its weight, so only there it may be refused
  · by_cases hzero : l = 0
    · cases hout : outside (float (word text 0)) with
      | false =>
        simp only [hzero, hout, if_true, true_imp_iff, true_and, Bool.false_eq_true, if_false,
          Option.some.injEq, eq_comm (a := v)]
      | true => simp [hzero, hout]
    · simp only [hzero, if_false, false_imp_iff, true_and, Option.some.injEq, eq_comm (a := v)]

omit [Zero α] in
/-- The second weight is read and forgotten. -/
theorem accepts_skipFloat {γ : Type*} (a : γ) :
    Accepts (fun s : PdfReader α => .done (a, readFloat float s)) fun text v =>
      text.length = 4 ∧ v = a := by
  refine accepts_readFloat float (fun _ => some a) (fun s v s' => ?_) fun text v => ?_
  · rw [Outcome.done.injEq, Prod.mk.injEq, Option.some.injEq]
    exact ⟨fun h => ⟨h.2.symm, h.1⟩, fun h => ⟨h.2, h.1.symm⟩⟩
  · rw [Option.some.injEq, eq_comm (a := v)]

omit [Zero α] in
/-- The pairs of a space, one after the other. -/
theorem loopText_pairs (i vector_length : Nat) (c : Prop) {n : Nat}
    {format : Nat → (Nat → α) → Bytes → (Nat → α) → Prop}
    (h : ∀ m < n, ∀ row text row', format m row text row' ↔ text.length = 8 ∧ c ∧
      row' = Function.update (Function.update row (i + m) (float (word text 0)))
        (i + m + vector_length) (float (word text 1))) {row row' : Nat → α} {text : Bytes} :
    loopText format (List.range n) row text row' ↔ text.length = n * 8 ∧ (0 < n → c) ∧
      row' = putPairs float vector_length i n text row := by
  have hcut : (List.range n).foldl (fun row m => Function.update (Function.update row (i + m)
        (float (word (chunk 8 text m) 0))) (i + m + vector_length)
          (float (word (chunk 8 text m) 1))) row
      = putPairs float vector_length i n text row := by
    refine List.foldl_ext _ _ _ fun a m _ => ?_
    -- every round takes eight bytes, its mean and then its variance
    have hmean : word (chunk 8 text m) 0 = word text (m * 2 + 0) :=
      word_chunk 2 text m (by omega)
    have hvari : word (chunk 8 text m) 1 = word text (m * 2 + 1) :=
      word_chunk 2 text m (by omega)
    rw [hmean, hvari, Nat.mul_comm m 2, Nat.add_zero]
  rw [loopText_range 8 (fun _ _ => c) (fun m text row => Function.update
    (Function.update row (i + m) (float (word text 0))) (i + m + vector_length)
      (float (word text 1))) h, hcut]
  refine and_congr_right fun _ => and_congr_left fun _ => ⟨fun h hn => h 0 hn, fun h k hk => ?_⟩
  exact h (by omega)

omit [Zero α] in
/-- Only the words of the pairs are looked at. -/
theorem putPairs_congr {vector_length i n : Nat} {text text' : Bytes}
    (h : ∀ j < 2 * n, word text j = word text' j) (row : Nat → α) :
    putPairs float vector_length i n text row = putPairs float vector_length i n text' row := by
  refine List.foldl_ext _ _ _ fun a m hm => ?_
  have hlt := List.mem_range.mp hm
  rw [h _ (by omega), h _ (by omega)]

/-- One space: its pairs, the weight, and one number that is not kept. -/
theorem accepts_storeSpace {ssize vector_length l : Nat} (hl : l < ssize) (row : Nat → α) :
    Accepts (storeSpace float outside ssize vector_length l row) fun text row' =>
      text.length = 4 * spaceWords ssize vector_length ∧
        SpaceFits float outside ssize vector_length l text ∧
        row' = putSpace float ssize vector_length l text row := by
  have hpairs := accepts_forEach (f := storeSpacePair float ssize vector_length l)
    (List.range (vector_length / ssize))
    (fun m hm row => accepts_storeSpacePair hl (List.mem_range.mp hm) row) row
  refine Accepts.format (Accepts.bind hpairs fun row => Accepts.bind (accepts_storeWeight row)
    fun row => accepts_skipFloat row) fun text row' => ?_
  simp only [loopText_pairs _ _ _ (fun m _ row text row' => Iff.rfl)]
  -- the pairs take `2 * n` words, the weight is the next, the skipped number the last
  unfold spaceWords SpaceFits putSpace
  generalize vector_length / ssize = n
  constructor
  · rintro ⟨hlength, ⟨hfits, hweight⟩, rfl⟩
    refine ⟨text.take (4 * (2 * n)), text.drop (4 * (2 * n)), _,
      (List.take_append_drop _ text).symm, ⟨?_, hfits, rfl⟩, (text.drop (4 * (2 * n))).take 4,
      (text.drop (4 * (2 * n))).drop 4, _, (List.take_append_drop 4 _).symm, ⟨?_, ?_, rfl⟩, ?_, ?_⟩
    · rw [List.length_take]
      omega
    · rw [List.length_take, List.length_drop]
      omega
    · rwa [word_take (by omega), word_drop]
    · rw [List.length_drop, List.length_drop]
      omega
    · rw [word_take (by omega), word_drop, Nat.add_zero]
      rw [putPairs_congr fun i (hi : i < 2 * n) =>
        word_take (by omega)]
  · rintro ⟨text₁, text₂, row₁, rfl, ⟨hlength₁, hfits, rfl⟩, text₃, text₄, row₂, rfl,
      ⟨hlength₃, hweight, rfl⟩, hlength₄, rfl⟩
    -- the weight is the word behind the pairs
    have hword : word (text₁ ++ (text₃ ++ text₄)) (2 * n) = word text₃ 0 := by
      rw [← Nat.add_zero (2 * n), word_append_right (by omega), word_append_left (by omega)]
    rw [hword]
    refine ⟨by simp only [List.length_append]; omega, ⟨hfits, hweight⟩, ?_⟩
    rw [putPairs_congr fun i (hi : i < 2 * n) =>
      word_append_left (show 4 * i + 4 ≤ text₁.length by omega) (text₃ ++ text₄)]

/-- **A pdf** takes so many words, if they fit. -/
theorem accepts_loadRow (msd_flag : Bool) (ssize vector_length : Nat) :
    Accepts (loadRow float outside msd_flag ssize vector_length) fun text row =>
      text.length = 4 * rowWords msd_flag ssize vector_length ∧
        RowFits float outside msd_flag ssize vector_length text ∧
        row = putRow float msd_flag ssize vector_length text := by
  by_cases hfits : ((2 * vector_length + 1 : Nat) : Int) ≤ intMax
  · unfold RowFits rowWords putRow
    simp only [and_iff_right hfits]
    cases msd_flag with
    | true =>
      -- one text for each space
      have hspaces := accepts_forEach (f := storeSpace float outside ssize vector_length)
        (List.range ssize) (fun l hl row => accepts_storeSpace (List.mem_range.mp hl) row)
        (0 : Nat → α)
      refine Reads.congr hspaces (fun s v s' => ?_) fun text row => ?_
      · rw [loadRow, if_pos hfits, if_pos rfl]
      · rw [loopText_range _ _ _ fun l hl row text row' => Iff.rfl, Nat.mul_left_comm]
        simp
    | false =>
      -- without spaces the row is one run of pairs
      have hpairs := accepts_forEach (f := storePair float (2 * vector_length) vector_length)
        (List.range vector_length) (fun m hm row => accepts_storePair
          (by have := List.mem_range.mp hm; omega) row) (0 : Nat → α)
      refine Reads.congr hpairs (fun s v s' => ?_) fun text row => ?_
      · rw [loadRow, if_pos hfits, if_neg Bool.false_ne_true]
      · rw [loopText_pairs 0 vector_length True
          (fun m _ row text row' => by rw [Nat.zero_add, true_and])]
        simp only [Bool.false_eq_true, if_false, false_imp_iff, true_and, imp_true_iff,
          show vector_length * 8 = 4 * (2 * vector_length) by omega]
  · constructor
    · rintro s text rest v - - ⟨-, ⟨h, -⟩, -⟩
      exact absurd h hfits
    · intro s v s' h
      rw [loadRow, if_neg hfits] at h
      exact nomatch h

omit [Zero α] in
/-- What is pushed onto a list. -/
theorem accepts_push {γ : Type*} {run : PdfReader α → Outcome (γ × PdfReader α)}
    {format : Bytes → γ → Prop} (h : Accepts run format) (rows : List γ) :
    Accepts (fun s => (run s).bind fun (row, s) => .done (rows ++ [row], s))
      fun text rows' => ∃ row, rows' = rows ++ [row] ∧ format text row := by
  have hpure : ∀ row : γ, Accepts (fun s : PdfReader α => .done (rows ++ [row], s))
      fun text rows' => text = [] ∧ rows' = rows ++ [row] := by
    intro row
    refine Reads.congr (Reads.pure (rows ++ [row])) (fun s v s' => ?_) fun _ _ => Iff.rfl
    rw [Outcome.done.injEq, Prod.mk.injEq]
    exact ⟨fun h => ⟨h.1.symm, h.2.symm⟩, fun h => ⟨h.1.symm, h.2.symm⟩⟩
  have hpush := Accepts.bind h hpure
  refine Accepts.format hpush fun text rows' => ?_
  constructor
  · rintro ⟨row, rfl, hrow⟩
    exact ⟨text, [], row, (List.append_nil text).symm, hrow, rfl, rfl⟩
  · rintro ⟨text₁, text₂, row, rfl, hrow, rfl, rfl⟩
    rw [List.append_nil]
    exact ⟨row, rfl, hrow⟩

variable (float outside)

/-- A text of pdfs. -/
abbrev Rows (msd_flag : Bool) (ssize vector_length : Nat) :
    Nat → Bytes → List (Nat → α) → Prop :=
  Records (4 * rowWords msd_flag ssize vector_length)
    (RowFits float outside msd_flag ssize vector_length)
    (putRow float msd_flag ssize vector_length)

variable {float outside}

/-- The pdfs of a tree. -/
theorem accepts_loadRows (msd_flag : Bool) (ssize vector_length npdf : Nat) :
    Accepts (loadRows float outside msd_flag ssize vector_length npdf)
      (Rows float outside msd_flag ssize vector_length npdf) := by
  have hrow := @accepts_loadRow α _ float outside msd_flag ssize vector_length
  have hloop := accepts_forEach (List.range npdf) (fun _ _ rows => accepts_push hrow rows) []
  refine Accepts.format hloop fun text rows => ?_
  refine loopText_records.symm.trans
    (Eq.to_iff (congrArg (fun format => loopText format (List.range npdf) [] text rows) ?_))
  funext k rows text rows'
  refine propext ⟨?_, ?_⟩
  · rintro ⟨hlength, hfits, rfl⟩
    exact ⟨_, rfl, hlength, hfits, rfl⟩
  · rintro ⟨row, rfl, hlength, hfits, rfl⟩
    exact ⟨hlength, hfits, rfl⟩

/-- The pdfs of all trees. -/
theorem accepts_loadTables (msd_flag : Bool) (ssize vector_length : Nat) (npdf : List Nat) :
    Accepts (loadTables float outside msd_flag ssize vector_length npdf) fun text tables =>
      tables.map List.length = npdf ∧
        Rows float outside msd_flag ssize vector_length npdf.sum text tables.flatten := by
  have hloop := accepts_forEach npdf (fun n _ tables =>
    accepts_push (@accepts_loadRows α _ float outside msd_flag ssize vector_length n) tables) []
  refine Accepts.format hloop fun text tables => ?_
  rw [loopText_groups]
  constructor
  · exact fun h => ⟨tables, rfl, h⟩
  · rintro ⟨groups, rfl, h⟩
    exact h

/-! ## Where each number is -/

variable (float)

/-- A pdf has the numbers of its text: for each space the pairs of mean and variance, the means
in front of the variances, and behind them the weight of the first space. What no space covers
is 0. -/
structure IsRow (msd_flag : Bool) (ssize vector_length : Nat) (text : Bytes) (row : Nat → α) :
    Prop where
  mean : ∀ l < ssize, ∀ m < vector_length / ssize, row (l * vector_length / ssize + m)
    = float (word text (l * spaceWords ssize vector_length + 2 * m))
  vari : ∀ l < ssize, ∀ m < vector_length / ssize,
    row (l * vector_length / ssize + m + vector_length)
      = float (word text (l * spaceWords ssize vector_length + 2 * m + 1))
  weight : msd_flag = true →
    row (2 * vector_length) = float (word text (2 * (vector_length / ssize)))
  rest : ∀ j, (∀ l < ssize, ∀ m < vector_length / ssize,
      j ≠ l * vector_length / ssize + m ∧ j ≠ l * vector_length / ssize + m + vector_length) →
    (msd_flag = true → j ≠ 2 * vector_length) → row j = 0

variable {float}

theorem IsRow.unique {msd_flag : Bool} {ssize vector_length : Nat} {text : Bytes}
    {row row' : Nat → α} (h : IsRow float msd_flag ssize vector_length text row)
    (h' : IsRow float msd_flag ssize vector_length text row') : row = row' := by
  funext j
  by_cases hpair : ∀ l < ssize, ∀ m < vector_length / ssize,
      j ≠ l * vector_length / ssize + m ∧ j ≠ l * vector_length / ssize + m + vector_length
  · by_cases hweight : msd_flag = true ∧ j = 2 * vector_length
    · rw [hweight.2, h.weight hweight.1, h'.weight hweight.1]
    · rw [h.rest j hpair fun hmsd hj => hweight ⟨hmsd, hj⟩,
        h'.rest j hpair fun hmsd hj => hweight ⟨hmsd, hj⟩]
  · push Not at hpair
    obtain ⟨l, hl, m, hm, hj⟩ := hpair
    by_cases hmean : j = l * vector_length / ssize + m
    · rw [hmean, h.mean l hl m hm, h'.mean l hl m hm]
    · rw [hj hmean, h.vari l hl m hm, h'.vari l hl m hm]

omit [Zero α] in
theorem putPairs_apply {vector_length n : Nat} (hn : n ≤ vector_length) (i : Nat) (text : Bytes)
    (row : Nat → α) (j : Nat) :
    putPairs float vector_length i n text row j =
      if i ≤ j ∧ j < i + n then float (word text (2 * (j - i)))
      else if i + vector_length ≤ j ∧ j < i + vector_length + n then
        float (word text (2 * (j - i - vector_length) + 1))
      else row j := by
  induction n with
  | zero =>
    rw [if_neg (by omega), if_neg (by omega)]
    rfl
  | succ n ih =>
    have hlast : putPairs float vector_length i (n + 1) text row
        = Function.update (Function.update (putPairs float vector_length i n text row) (i + n)
          (float (word text (2 * n)))) (i + n + vector_length)
            (float (word text (2 * n + 1))) := by
      rw [putPairs, List.range_succ, List.foldl_append]
      rfl
    rw [hlast, Function.update_apply, Function.update_apply, ih (by omega)]
    by_cases hvari : j = i + n + vector_length
    · rw [if_pos hvari, if_neg (by omega), if_pos (by omega),
        show j - i - vector_length = n by omega]
    · rw [if_neg hvari]
      by_cases hmean : j = i + n
      · rw [if_pos hmean, if_pos (by omega), show j - i = n by omega]
      · rw [if_neg hmean]
        by_cases hfirst : i ≤ j ∧ j < i + n
        · rw [if_pos hfirst, if_pos (by omega)]
        · rw [if_neg hfirst, if_neg (show ¬ (i ≤ j ∧ j < i + (n + 1)) by omega)]
          by_cases hsecond : i + vector_length ≤ j ∧ j < i + vector_length + n
          · rw [if_pos hsecond, if_pos (by omega)]
          · rw [if_neg hsecond, if_neg (by omega)]

/-- The spaces before the `n`-th. -/
structure IsRowUpTo (float : BitVec 32 → α) (ssize vector_length n : Nat) (text : Bytes)
    (row : Nat → α) : Prop where
  mean : ∀ l < n, ∀ m < vector_length / ssize, row (l * vector_length / ssize + m)
    = float (word text (l * spaceWords ssize vector_length + 2 * m))
  vari : ∀ l < n, ∀ m < vector_length / ssize,
    row (l * vector_length / ssize + m + vector_length)
      = float (word text (l * spaceWords ssize vector_length + 2 * m + 1))
  weight : 0 < n → row (2 * vector_length) = float (word text (2 * (vector_length / ssize)))
  rest : ∀ j, (∀ l < n, ∀ m < vector_length / ssize,
      j ≠ l * vector_length / ssize + m ∧ j ≠ l * vector_length / ssize + m + vector_length) →
    (0 < n → j ≠ 2 * vector_length) → row j = 0

/-- Earlier spaces end where a later one begins. -/
theorem place_le_of_lt {ssize vector_length l n : Nat} (h : l < n) :
    l * vector_length / ssize + vector_length / ssize ≤ n * vector_length / ssize := by
  calc l * vector_length / ssize + vector_length / ssize
      ≤ (l + 1) * vector_length / ssize := place_add_le ssize vector_length l
    _ ≤ n * vector_length / ssize := Nat.div_le_div_right (Nat.mul_le_mul_right _ h)

theorem isRowUpTo_succ {ssize vector_length n : Nat} (hn : n < ssize) {text : Bytes}
    {row : Nat → α} (h : IsRowUpTo float ssize vector_length n text row) :
    IsRowUpTo float ssize vector_length (n + 1) text
      (putSpace float ssize vector_length n
        (chunk (4 * spaceWords ssize vector_length) text n) row) := by
  have hdiv : vector_length / ssize ≤ vector_length := Nat.div_le_self _ _
  have hlast := place_end_le hn vector_length
  have hbefore : ∀ l < n, l * vector_length / ssize + vector_length / ssize
      ≤ n * vector_length / ssize := fun l hl => place_le_of_lt hl
  have hword : ∀ i < spaceWords ssize vector_length,
      word (chunk (4 * spaceWords ssize vector_length) text n) i
        = word text (n * spaceWords ssize vector_length + i) :=
    fun i hi => word_chunk _ text n hi
  have hpairs : ∀ j, (0 < n ∨ j ≠ 2 * vector_length) →
      putSpace float ssize vector_length n
          (chunk (4 * spaceWords ssize vector_length) text n) row j
        = putPairs float vector_length (n * vector_length / ssize) (vector_length / ssize)
          (chunk (4 * spaceWords ssize vector_length) text n) row j := by
    intro j hj
    unfold putSpace
    split
    next hzero => rw [Function.update_of_ne (hj.resolve_left (by omega))]
    next => rfl
  refine ⟨fun l hl m hm => ?_, fun l hl m hm => ?_, fun _ => ?_, fun j hj hweight => ?_⟩
  · have hend := place_end_le (show l < ssize by omega) vector_length
    rw [hpairs _ (Or.inr (by omega)), putPairs_apply hdiv]
    rcases Nat.lt_succ_iff_lt_or_eq.mp hl with hlt | rfl
    · have hle := hbefore l hlt
      rw [if_neg (by omega), if_neg (by omega)]
      exact h.mean l hlt m hm
    · rw [if_pos (by omega), Nat.add_sub_cancel_left, hword _ (by unfold spaceWords; omega)]
  · have hend := place_end_le (show l < ssize by omega) vector_length
    rw [hpairs _ (Or.inr (by omega)), putPairs_apply hdiv]
    rcases Nat.lt_succ_iff_lt_or_eq.mp hl with hlt | rfl
    · have hle := hbefore l hlt
      have hnonneg := Nat.zero_le (l * vector_length / ssize)
      rw [if_neg (by omega), if_neg (by omega)]
      exact h.vari l hlt m hm
    · rw [if_neg (by omega), if_pos (by omega),
        show l * vector_length / ssize + m + vector_length - l * vector_length / ssize
          - vector_length = m by omega, hword _ (by unfold spaceWords; omega), Nat.add_assoc]
  · rcases Nat.eq_zero_or_pos n with rfl | hpos
    · have hfirst : putSpace float ssize vector_length 0
            (chunk (4 * spaceWords ssize vector_length) text 0) row (2 * vector_length)
          = float (word (chunk (4 * spaceWords ssize vector_length) text 0)
            (2 * (vector_length / ssize))) := by
        unfold putSpace
        rw [if_pos rfl, Function.update_self]
      rw [hfirst, hword _ (by unfold spaceWords; omega), Nat.zero_mul, Nat.zero_add]
    · rw [hpairs _ (Or.inl hpos), putPairs_apply hdiv, if_neg (by omega), if_neg (by omega)]
      exact h.weight hpos
  · have hnew := hj n (Nat.lt_succ_self n)
    rw [hpairs j (Or.inr (hweight (Nat.succ_pos n))), putPairs_apply hdiv, if_neg, if_neg]
    · exact h.rest j (fun l hl => hj l (by omega)) fun _ => hweight (Nat.succ_pos n)
    · rintro ⟨hge, hlt⟩
      exact (hnew (j - n * vector_length / ssize - vector_length) (by omega)).2 (by omega)
    · rintro ⟨hge, hlt⟩
      exact (hnew (j - n * vector_length / ssize) (by omega)).1 (by omega)

/-- The spaces of a pdf. Without spaces there is one. -/
def spaces (msd_flag : Bool) (ssize : Nat) : Nat := if msd_flag then ssize else 1

/-- **The stores of a pdf** leave each number at its place. -/
theorem isRow_putRow {msd_flag : Bool} {ssize : Nat} (hpos : 0 < ssize) (vector_length : Nat)
    (text : Bytes) :
    IsRow float msd_flag (spaces msd_flag ssize) vector_length text
      (putRow float msd_flag ssize vector_length text) := by
  cases msd_flag with
  | true =>
    -- space by space: what is written so far is right, the rest is still zero
    have hall : ∀ n ≤ ssize, IsRowUpTo float ssize vector_length n text
        ((List.range n).foldl (fun row l => putSpace float ssize vector_length l
          (chunk (4 * spaceWords ssize vector_length) text l) row) 0) := by
      intro n
      induction n with
      | zero =>
        intro _
        exact ⟨fun l hl => absurd hl (Nat.not_lt_zero l), fun l hl => absurd hl (Nat.not_lt_zero l),
          fun h => absurd h (lt_irrefl 0), fun _ _ _ => rfl⟩
      | succ n ih =>
        intro hn
        rw [List.range_succ, List.foldl_append, List.foldl_cons, List.foldl_nil]
        exact isRowUpTo_succ hn (ih (by omega))
    obtain ⟨hmean, hvari, hweight, hrest⟩ := hall ssize le_rfl
    exact ⟨hmean, hvari, fun _ => hweight hpos, fun j hj hne => hrest j hj fun _ => hne rfl⟩
  | false =>
    -- without spaces there is one run of pairs from place 0
    have hrow : putRow float false ssize vector_length text
        = putPairs float vector_length 0 vector_length text 0 := rfl
    have hone : spaces false ssize = 1 := rfl
    rw [hrow, hone]
    refine ⟨fun l hl m hm => ?_, fun l hl m hm => ?_, fun h => Bool.noConfusion h,
      fun j hj _ => ?_⟩
    · obtain rfl : l = 0 := by omega
      rw [Nat.div_one] at hm
      rw [putPairs_apply le_rfl, Nat.zero_mul, Nat.zero_div, Nat.zero_add, if_pos (by omega),
        Nat.sub_zero, Nat.zero_mul, Nat.zero_add]
    · obtain rfl : l = 0 := by omega
      rw [Nat.div_one] at hm
      rw [putPairs_apply le_rfl, Nat.zero_mul, Nat.zero_div, Nat.zero_add, if_neg (by omega),
        if_pos (by omega), Nat.zero_mul, Nat.zero_add,
        show m + vector_length - 0 - vector_length = m by omega]
    · have hfirst := hj 0 Nat.zero_lt_one
      rw [Nat.zero_mul, Nat.zero_div, Nat.div_one] at hfirst
      rw [putPairs_apply le_rfl, if_neg, if_neg]
      · rfl
      · rintro ⟨hge, hlt⟩
        exact (hfirst (j - vector_length) (by omega)).2 (by omega)
      · rintro ⟨hge, hlt⟩
        exact (hfirst j (by omega)).1 (by omega)

end Formats

/-! ## Files -/

/-- Four bytes are an int, whatever the variable held before. -/
theorem readInt_append {text : Bytes} (h : text.length = 4) (before : Option Int) (rest : Bytes) :
    readInt before (text ++ rest) = .done ((word text 0).toInt, rest) := by
  unfold readInt
  rw [freadBigEndian_append (by omega)]
  rfl

/-- An `int` that is not the value before is in the file. -/
theorem readInt_eq_done {before : Option Int} {fp rest : Bytes} {i : Int}
    (h : readInt before fp = .done (i, rest)) (hbefore : before ≠ some i) :
    ∃ text, fp = text ++ rest ∧ text.length = 4 ∧ (word text 0).toInt = i := by
  by_cases hlength : 4 ≤ fp.length
  · have hfour : (fp.take 4).length = 4 := by
      rw [List.length_take]
      omega
    have hread := readInt_append hfour before (fp.drop 4)
    rw [List.take_append_drop, h] at hread
    obtain ⟨rfl, rfl⟩ := Prod.mk.inj (Outcome.done.inj hread)
    exact ⟨fp.take 4, (List.take_append_drop 4 fp).symm, hfour, rfl⟩
  · obtain ⟨items, part, hread, hitems⟩ := freadBigEndian_short (show fp.length < 4 * 1 by omega)
    obtain rfl : items = [] := List.length_eq_zero_iff.mp (by omega)
    unfold readInt at h
    rw [hread] at h
    -- only the value before is left
    cases part with
    | nil =>
      cases before with
      | none => cases h
      | some j =>
        obtain ⟨rfl, -⟩ := Prod.mk.inj (Outcome.done.inj h)
        exact absurd rfl hbefore
    | cons b part => cases h

/-- The numbers of pdfs that a text says. -/
def numbers (ntree : Nat) (text : Bytes) : List Nat :=
  (List.range ntree).map fun j => (word text j).toInt.toNat

/-- A number that was positive still is when it is taken for a natural number. -/
theorem numbers_pos_iff {ntree : Nat} {text : Bytes} :
    (∀ n ∈ numbers ntree text, 0 < n) ↔ ∀ j < ntree, 0 < (word text j).toInt := by
  simp [numbers]

/-- The numbers of leaves, when all are positive. -/
theorem readNumbers_append {ntree : Nat} {text : Bytes} (h : text.length = 4 * ntree)
    (hpos : ∀ j < ntree, 0 < (word text j).toInt) (rest : Bytes) :
    readNumbers ntree (text ++ rest) = .done (numbers ntree text, rest) := by
  have hfind : (((List.range ntree).map (word text)).map BitVec.toInt).findIdx? (· ≤ 0) = none := by
    rw [List.findIdx?_eq_none_iff, List.map_map]
    intro i hi
    obtain ⟨j, hj, rfl⟩ := List.mem_map.mp hi
    simpa using hpos j (List.mem_range.mp hj)
  unfold readNumbers
  simp only [freadBigEndian_append h, hfind, List.length_map, List.length_range, if_true]
  rw [numbers, List.map_map, List.map_map]
  rfl

/-- Only as many positive numbers as there are trees are accepted. -/
theorem readNumbers_eq_done {ntree : Nat} {fp rest : Bytes} {npdf : List Nat}
    (h : readNumbers ntree fp = .done (npdf, rest)) :
    ∃ text, fp = text ++ rest ∧ text.length = 4 * ntree ∧
      (∀ j < ntree, 0 < (word text j).toInt) ∧ npdf = numbers ntree text := by
  by_cases hlength : 4 * ntree ≤ fp.length
  · have htake : (fp.take (4 * ntree)).length = 4 * ntree := by
      rw [List.length_take]
      omega
    have hread := freadBigEndian_append htake (fp.drop (4 * ntree))
    rw [List.take_append_drop] at hread
    -- none of the numbers was refused
    have hpos : ∀ j < ntree, 0 < (word (fp.take (4 * ntree)) j).toInt := by
      unfold readNumbers at h
      simp only [hread] at h
      split at h
      · exact nomatch h
      next hnone =>
        rw [List.findIdx?_eq_none_iff, List.map_map] at hnone
        intro j hj
        have := hnone _ (List.mem_map_of_mem (List.mem_range.mpr hj))
        simpa using this
    have hdone := readNumbers_append htake hpos (fp.drop (4 * ntree))
    rw [List.take_append_drop, h] at hdone
    obtain ⟨rfl, rfl⟩ := Prod.mk.inj (Outcome.done.inj hdone)
    exact ⟨fp.take (4 * ntree), (List.take_append_drop _ fp).symm, htake, hpos, rfl⟩
  -- too few items: `ntree` of them are asked for
  · obtain ⟨items, part, hread, hitems⟩ := freadBigEndian_short (not_le.mp hlength)
    unfold readNumbers at h
    simp only [hread, List.length_map, if_neg hitems.ne] at h
    split at h
    · exact nomatch h
    · split at h <;> exact nomatch h

section File

variable {α : Type*} [Zero α] (float : BitVec 32 → α) (outside : α → Bool)

/-- The pdfs are behind the header. -/
def rowText (msd_flag : Bool) (ntree vector_length : Nat) (text : Bytes) (r : Nat) : Bytes :=
  chunk (4 * rowWords msd_flag (word text 1).toInt.toNat vector_length)
    (text.drop (4 * (3 + ntree))) r

/-- A text is a file with the pdfs of a model. -/
structure IsPdfFile (msd_flag : Bool) (ntree : Nat) (text : Bytes) (model : PdfModel α) :
    Prop where
  ntree_pos : 0 < ntree
  flag : (word text 0).toInt = if msd_flag then 1 else 0
  ssize : 0 < (word text 1).toInt
  vector_length : (word text 2).toInt = model.vector_length
  vector_length_pos : 0 < model.vector_length
  npdf : model.npdf = (List.range ntree).map fun j => (word text (3 + j)).toInt.toNat
  npdf_pos : ∀ n ∈ model.npdf, 0 < n
  length : text.length = 4 * (3 + ntree
    + model.npdf.sum * rowWords msd_flag (word text 1).toInt.toNat model.vector_length)
  fits : ∀ r < model.npdf.sum, RowFits float outside msd_flag (word text 1).toInt.toNat
    model.vector_length (rowText msd_flag ntree model.vector_length text r)
  /-- There are as many pdfs as the file says. -/
  tables : model.pdf.map List.length = model.npdf
  rows : ∀ r row, model.pdf.flatten[r]? = some row →
    IsRow float msd_flag (spaces msd_flag (word text 1).toInt.toNat) model.vector_length
      (rowText msd_flag ntree model.vector_length text r) row

/-- What follows the header: the rows of all trees. -/
structure IsBody (msd_flag : Bool) (ssize vector_length : Nat) (npdf : List Nat) (text : Bytes)
    (pdf : List (List (Nat → α))) : Prop where
  tables : pdf.map List.length = npdf
  length : text.length = npdf.sum * (4 * rowWords msd_flag ssize vector_length)
  fits : ∀ r < npdf.sum, RowFits float outside msd_flag ssize vector_length
    (chunk (4 * rowWords msd_flag ssize vector_length) text r)
  rows : ∀ r row, pdf.flatten[r]? = some row →
    IsRow float msd_flag (spaces msd_flag ssize) vector_length
      (chunk (4 * rowWords msd_flag ssize vector_length) text r) row

variable {float outside}

/-- The rows of a file against the list that is loaded. -/
theorem rows_iff {msd_flag : Bool} {ssize vector_length : Nat} (hpos : 0 < ssize) {npdf : List Nat}
    {text : Bytes} {tables : List (List (Nat → α))} (htables : tables.map List.length = npdf) :
    Rows float outside msd_flag ssize vector_length npdf.sum text tables.flatten ↔
      text.length = npdf.sum * (4 * rowWords msd_flag ssize vector_length) ∧
        (∀ r < npdf.sum, RowFits float outside msd_flag ssize vector_length
          (chunk (4 * rowWords msd_flag ssize vector_length) text r)) ∧
        ∀ r row, tables.flatten[r]? = some row →
          IsRow float msd_flag (spaces msd_flag ssize) vector_length
            (chunk (4 * rowWords msd_flag ssize vector_length) text r) row := by
  have hcount : tables.flatten.length = npdf.sum := by
    rw [List.length_flatten, htables]
  constructor
  · rintro ⟨hlength, hfits, hvalues⟩
    -- a row that was read is the row of its bytes
    refine ⟨hlength, hfits, fun r row hrow => ?_⟩
    rw [hvalues, List.getElem?_map] at hrow
    obtain ⟨k, hk, rfl⟩ := Option.map_eq_some_iff.mp hrow
    obtain ⟨hlt, rfl⟩ := List.getElem?_eq_some_iff.mp hk
    rw [List.getElem_range]
    exact isRow_putRow hpos vector_length _
  · rintro ⟨hlength, hfits, hrows⟩
    refine ⟨hlength, hfits, List.ext_getElem (by simpa using hcount) fun r hr _ => ?_⟩
    rw [List.getElem_map, List.getElem_range]
    -- and the bytes determine the row
    exact (hrows r _ (List.getElem?_eq_getElem hr)).unique (isRow_putRow hpos vector_length _)

/-- The body of a file. -/
theorem loadTables_iff {msd_flag : Bool} {ssize vector_length : Nat} (hpos : 0 < ssize)
    {npdf : List Nat} {fp rest : Bytes} {tables : List (List (Nat → α))} :
    (∃ s, loadTables float outside msd_flag ssize vector_length npdf ⟨fp, none, true⟩
        = .done (tables, s) ∧ s.result = true ∧ s.fp = rest) ↔
      ∃ text, fp = text ++ rest ∧
        IsBody float outside msd_flag ssize vector_length npdf text tables := by
  have haccepts := @accepts_loadTables α _ float outside msd_flag ssize vector_length npdf
  constructor
  · rintro ⟨s, hload, hresult, rfl⟩
    obtain ⟨-, text, heq, htables, hrows⟩ := haccepts.sound _ _ _ hload hresult
    obtain ⟨hlength, hfits, hrows⟩ := (rows_iff hpos htables).mp hrows
    exact ⟨text, heq, htables, hlength, hfits, hrows⟩
  · rintro ⟨text, rfl, htables, hlength, hfits, hrows⟩
    obtain ⟨s, hload, hresult, hrest⟩ := haccepts.complete ⟨text ++ rest, none, true⟩ text rest
      tables rfl rfl ⟨htables, (rows_iff hpos htables).mpr ⟨hlength, hfits, hrows⟩⟩
    exact ⟨s, hload, hresult, hrest⟩

/-- The four parts of a header, and the body. -/
structure Parts (ntree : Nat) (text t₀ t₁ t₂ t₃ t₄ : Bytes) : Prop where
  eq : text = t₀ ++ (t₁ ++ (t₂ ++ (t₃ ++ t₄)))
  length₀ : t₀.length = 4
  length₁ : t₁.length = 4
  length₂ : t₂.length = 4
  length₃ : t₃.length = 4 * ntree

/-- A text of at least a header's length has the parts of one. -/
theorem exists_parts {ntree : Nat} {text : Bytes} (h : 4 * (3 + ntree) ≤ text.length) :
    ∃ t₀ t₁ t₂ t₃ t₄, Parts ntree text t₀ t₁ t₂ t₃ t₄ := by
  have hsplit : ∀ (n : Nat) (t : Bytes), n ≤ t.length →
      ∃ u v, t = u ++ v ∧ u.length = n ∧ v.length = t.length - n := by
    intro n t hn
    exact ⟨t.take n, t.drop n, (List.take_append_drop n t).symm, by
      rw [List.length_take]
      omega, List.length_drop⟩
  obtain ⟨t₀, u₁, rfl, h₀, hu₁⟩ := hsplit 4 text (by omega)
  obtain ⟨t₁, u₂, rfl, h₁, hu₂⟩ := hsplit 4 u₁ (by omega)
  obtain ⟨t₂, u₃, rfl, h₂, hu₃⟩ := hsplit 4 u₂ (by omega)
  obtain ⟨t₃, t₄, rfl, h₃, -⟩ := hsplit (4 * ntree) u₃ (by omega)
  exact ⟨t₀, t₁, t₂, t₃, t₄, rfl, h₀, h₁, h₂, h₃⟩

section Parts

variable {ntree : Nat} {text t₀ t₁ t₂ t₃ t₄ : Bytes} (h : Parts ntree text t₀ t₁ t₂ t₃ t₄)

include h

theorem Parts.word₀ : word text 0 = word t₀ 0 := by
  have hlength := h.length₀
  rw [h.eq, word_append_left (by omega)]

/-- The second word is the number of spaces. -/
theorem Parts.word₁ : word text 1 = word t₁ 0 := by
  have hlength := h.length₁
  rw [h.eq, word_append_right h.length₀ _ 0, word_append_left (by omega)]

/-- The third word is the vector length. -/
theorem Parts.word₂ : word text 2 = word t₂ 0 := by
  have hlength := h.length₂
  rw [h.eq, word_append_right h.length₀ _ 1, word_append_right h.length₁ _ 0,
    word_append_left (by omega)]

/-- Then come the numbers of leaves, one for each tree. -/
theorem Parts.word₃ {j : Nat} (hj : j < ntree) : word text (3 + j) = word t₃ j := by
  have hlength := h.length₃
  rw [h.eq, show 3 + j = 1 + (1 + (1 + j)) by omega, word_append_right h.length₀,
    word_append_right h.length₁, word_append_right h.length₂, word_append_left (by omega)]

theorem Parts.body : text.drop (4 * (3 + ntree)) = t₄ := by
  have hfront : (t₀ ++ (t₁ ++ (t₂ ++ t₃))).length = 4 * (3 + ntree) := by
    simp only [List.length_append, h.length₀, h.length₁, h.length₂, h.length₃]
    omega
  have hsplit : text = (t₀ ++ (t₁ ++ (t₂ ++ t₃))) ++ t₄ := by
    rw [h.eq]
    simp only [List.append_assoc]
  rw [hsplit, ← hfront, List.drop_left]

/-- The numbers of leaves, read from the whole text. -/
theorem Parts.numbers_eq : (List.range ntree).map (fun j => (word text (3 + j)).toInt.toNat)
    = numbers ntree t₃ :=
  List.map_congr_left fun j hj => by rw [h.word₃ (List.mem_range.mp hj)]

/-- The bytes of a row, counted from the start of the rows. -/
theorem Parts.rowText_eq (msd_flag : Bool) (vector_length r : Nat) :
    rowText msd_flag ntree vector_length text r
      = chunk (4 * rowWords msd_flag (word t₁ 0).toInt.toNat vector_length) t₄ r := by
  rw [rowText, h.word₁, h.body]

/-- A text in its parts is a file when the header passes the checks and the body has the rows. -/
theorem Parts.isPdfFile_iff {msd_flag : Bool} {model : PdfModel α} :
    IsPdfFile float outside msd_flag ntree text model ↔
      (0 < ntree ∧ (word t₀ 0).toInt = (if msd_flag then 1 else 0) ∧ 0 < (word t₁ 0).toInt ∧
        (word t₂ 0).toInt = model.vector_length ∧ 0 < model.vector_length ∧
        model.npdf = numbers ntree t₃ ∧ ∀ j < ntree, 0 < (word t₃ j).toInt) ∧
      IsBody float outside msd_flag (word t₁ 0).toInt.toNat model.vector_length model.npdf t₄
        model.pdf := by
  have hlength : text.length = 4 * (3 + ntree) + t₄.length := by
    simp only [h.eq, List.length_append, h.length₀, h.length₁, h.length₂, h.length₃]
    omega
  constructor
  · intro hfile
    have hnpdf := hfile.npdf.trans h.numbers_eq
    refine ⟨⟨hfile.ntree_pos, h.word₀ ▸ hfile.flag, h.word₁ ▸ hfile.ssize,
      h.word₂ ▸ hfile.vector_length, hfile.vector_length_pos, hnpdf,
      numbers_pos_iff.mp (hnpdf ▸ hfile.npdf_pos)⟩, hfile.tables, ?_, fun r hr => ?_,
      fun r row hrow => ?_⟩
    · have hwords := hfile.length
      rw [h.word₁, hlength, Nat.mul_add 4 (3 + ntree), Nat.mul_left_comm 4] at hwords
      exact Nat.add_left_cancel hwords
    · have hfits := hfile.fits r hr
      rwa [h.rowText_eq, h.word₁] at hfits
    · have hrows := hfile.rows r row hrow
      rwa [h.rowText_eq, h.word₁] at hrows
  · rintro ⟨⟨hntree, hflag, hssize, hvector, hvectorPos, hnpdf, hnumbers⟩, hbody⟩
    refine ⟨hntree, h.word₀ ▸ hflag, h.word₁ ▸ hssize, h.word₂ ▸ hvector, hvectorPos,
      hnpdf.trans h.numbers_eq.symm, hnpdf ▸ numbers_pos_iff.mpr hnumbers, ?_, fun r hr => ?_,
      hbody.tables, fun r row hrow => ?_⟩
    · rw [h.word₁, hlength, hbody.length, Nat.mul_add 4 (3 + ntree), Nat.mul_left_comm 4]
    · rw [h.rowText_eq, h.word₁]
      exact hbody.fits r hr
    · rw [h.rowText_eq, h.word₁]
      exact hbody.rows r row hrow

end Parts

/-- What the loader accepts is a file of models, and the rest is not touched. -/
theorem isPdfFile_of_load {fp rest : Bytes} {ntree : Nat} {msd_flag : Bool} {model : PdfModel α}
    (h : modelLoadPdf float outside fp ntree msd_flag = .done (some model, rest)) :
    ∃ text, fp = text ++ rest ∧ IsPdfFile float outside msd_flag ntree text model := by
  unfold modelLoadPdf at h
  obtain ⟨hntree, h⟩ := Outcome.check_eq_done.mp h
  -- the flag comes first, then the two sizes
  obtain ⟨⟨i, fp₁⟩, hi, h⟩ := Outcome.bind_eq_done.mp h
  obtain ⟨t₀, rfl, h₀, rfl⟩ := readInt_eq_done hi (Option.some_ne_none i).symm
  obtain ⟨hflag, h⟩ := Outcome.check_eq_done.mp h
  obtain ⟨⟨ssize, fp₂⟩, hssize, h⟩ := Outcome.bind_eq_done.mp h
  obtain ⟨t₁, rfl, h₁, rfl⟩ := readInt_eq_done hssize (Option.some_ne_none ssize).symm
  obtain ⟨hssizePos, h⟩ := Outcome.check_eq_done.mp h
  obtain ⟨⟨vector_length, fp₃⟩, hvector, h⟩ := Outcome.bind_eq_done.mp h
  obtain ⟨hvectorPos, h⟩ := Outcome.check_eq_done.mp h
  -- a positive number is not the zero that was there
  have hread : some 0 ≠ some vector_length := by
    rintro hzero
    have := Option.some.inj hzero
    omega
  obtain ⟨t₂, rfl, h₂, rfl⟩ := readInt_eq_done hvector hread
  -- the numbers of leaves, one for each tree
  obtain ⟨⟨npdf, fp₄⟩, hnpdf, h⟩ := Outcome.bind_eq_done.mp h
  obtain ⟨t₃, rfl, h₃, hnumbers, rfl⟩ := readNumbers_eq_done hnpdf
  obtain ⟨⟨tables, s⟩, hload, h⟩ := Outcome.bind_eq_done.mp h
  dsimp only at h
  split at h
  next hresult =>
    obtain ⟨hmodel, rfl⟩ := Prod.mk.inj (Outcome.done.inj h)
    obtain rfl := Option.some.inj hmodel
    -- what is left is the rows of all trees
    obtain ⟨t₄, rfl, hbody⟩ := (loadTables_iff (by omega)).mp ⟨s, hload, hresult, rfl⟩
    have hparts : Parts ntree _ t₀ t₁ t₂ t₃ t₄ := ⟨rfl, h₀, h₁, h₂, h₃⟩
    have hflag' : (word t₀ 0).toInt = if msd_flag then 1 else 0 := by
      cases msd_flag with
      | true => simpa using hflag
      | false => simpa using hflag
    refine ⟨_, by simp only [List.append_assoc], hparts.isPdfFile_iff.mpr
      ⟨⟨by omega, hflag', by omega, ?_, ?_, rfl, hnumbers⟩, hbody⟩⟩
    · show (word t₂ 0).toInt = ((word t₂ 0).toInt.toNat : Int)
      omega
    · show 0 < (word t₂ 0).toInt.toNat
      omega
  next => exact nomatch (Prod.mk.inj (Outcome.done.inj h)).1

/-- The loader accepts every file of models, whatever follows it. -/
theorem load_of_isPdfFile {text : Bytes} {ntree : Nat} {msd_flag : Bool} {model : PdfModel α}
    (h : IsPdfFile float outside msd_flag ntree text model) (rest : Bytes) :
    modelLoadPdf float outside (text ++ rest) ntree msd_flag = .done (some model, rest) := by
  have hshort : 4 * (3 + ntree) ≤ text.length := by
    rw [h.length]
    omega
  obtain ⟨t₀, t₁, t₂, t₃, t₄, hparts⟩ := exists_parts hshort
  obtain ⟨⟨hntree, hflag, hssize, hvector, hvectorPos, hnpdf, hnumbers⟩, hbody⟩ :=
    hparts.isPdfFile_iff.mp h
  -- the rows are read with the header's numbers
  obtain ⟨s, hload, hresult, hrest⟩ : ∃ s, loadTables float outside msd_flag
      (word t₁ 0).toInt.toNat model.vector_length model.npdf ⟨t₄ ++ rest, none, true⟩
        = .done (model.pdf, s) ∧ s.result = true ∧ s.fp = rest :=
    (loadTables_iff (by omega)).mpr ⟨t₄, rfl, hbody⟩
  -- now read by read, each with its check
  unfold modelLoadPdf
  rw [if_neg (by omega), hparts.eq]
  simp only [List.append_assoc]
  rw [readInt_append hparts.length₀ none, Outcome.bind_done]
  dsimp only
  rw [if_neg (by cases msd_flag <;> simp [hflag]), readInt_append hparts.length₁ none,
    Outcome.bind_done]
  dsimp only
  rw [if_neg (by omega), readInt_append hparts.length₂ (some 0), Outcome.bind_done]
  dsimp only
  rw [if_neg (by omega), readNumbers_append hparts.length₃ hnumbers, Outcome.bind_done]
  dsimp only
  rw [← hnpdf, hvector, Int.toNat_natCast, hload, Outcome.bind_done]
  dsimp only
  rw [if_pos hresult, hrest]

/-- **What is accepted, and what is made of it.** `HTS_Model_load_pdf` returns `TRUE` exactly when
the file begins with one that has the pdfs of the model, and leaves what is behind it. -/
theorem modelLoadPdf_eq_done_iff (fp rest : Bytes) (ntree : Nat) (msd_flag : Bool)
    (model : PdfModel α) :
    modelLoadPdf float outside fp ntree msd_flag = .done (some model, rest) ↔
      ∃ text, fp = text ++ rest ∧ IsPdfFile float outside msd_flag ntree text model := by
  constructor
  · exact isPdfFile_of_load
  · rintro ⟨text, rfl, h⟩
    exact load_of_isPdfFile h rest

/-- Two spaces with a pair each. A byte is left. -/
example : ∃ model, modelLoadPdf BitVec.toNat (fun _ => false)
      [0, 0, 0, 1, 0, 0, 0, 2, 0, 0, 0, 2, 0, 0, 0, 1, 0, 0, 0, 5, 0, 0, 0, 7, 0, 0, 0, 1,
        0, 0, 0, 2, 0, 0, 0, 3, 0, 0, 0, 4, 0, 0, 0, 6, 0, 0, 0, 8, 9] 1 true
        = .done (some model, [9]) ∧
      model.pdf.map (fun table => table.map fun row => (List.range 5).map row)
        = [[[5, 3, 7, 4, 1]]] :=
  ⟨_, rfl, rfl⟩

end File

end Vox.Hts
