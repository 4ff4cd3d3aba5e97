import Vox.Hts.PdfFile
import Vox.Mage.LabelModel

/-!
# hts_engine — the pdfs of a label

A stream is loaded from a tree file and a pdf file for each interpolated model. What it has for a
label is looked up in the trees, the pdfs of the models are taken at the numbers found, and added
up with the interpolation weights. No access checks that there is a pdf with such a number.

* `Source.exists_says` / `Source.says_unique` — the files say exactly one pdf for a label
  that one of their trees is for.
* `lookups_of_files` — a stream that was loaded from files that fit has the pdfs that
  `Vox.Mage.Model` takes for granted: what is added up for a label is what `Vox.Mage` computes
  from the pdfs that the files say.
-/

namespace Vox.Hts

open Lib Mage

/-! ## Streams -/

/-- `HTS_Model` -/
structure HtsModel where
  trees : TreeModel
  pdfs : PdfModel ℚ

/-- `HTS_Stream` but for its windows. -/
structure HtsStream where
  vector_length : Nat
  msd_flag : Bool
  model : List HtsModel

/-- The opened files of a model. -/
structure ModelFiles where
  pdf : Option Bytes
  tree : Option File

def notSpecified (files : String) : Exit :=
  .error ("HTS_Stream_load_pdf_and_tree: File for duration ".toList ++ files.toList
    ++ " is not specified.\n".toList)

def differentVectors : Exit :=
  .error ("HTS_Stream_load_pdf_and_tree: Vector sizes of state output vectors are different in "
    ++ "between given modelsets.\n").toList

section Load

variable (float : BitVec 32 → ℚ) (outside : ℚ → Bool)

/-- A turn of the loop of `HTS_Stream_load_pdf_and_tree`. -/
def loadModel (msd_flag : Bool) (files : ModelFiles) : Outcome (Option HtsModel) :=
  match files.pdf, files.tree with
  | none, _ => .exited (notSpecified "PDFs")
  | some _, none => .exited (notSpecified "trees")
  | some pdf_fp, some tree_fp =>
    (modelLoadTree tree_fp).bind fun trees =>
      match trees with
      | none => .done none
      | some trees =>
        (modelLoadPdf float outside pdf_fp trees.tree.length msd_flag).bind fun (pdfs, _) =>
          .done (pdfs.map fun pdfs => ⟨trees, pdfs⟩)

/-- The loop, which a failure ends. -/
def loadModels (msd_flag : Bool) : List ModelFiles → Outcome (Option (List HtsModel))
  | [] => .done (some [])
  | files :: rest =>
    (loadModel float outside msd_flag files).bind fun model =>
      match model with
      | none => .done none
      | some model =>
        (loadModels msd_flag rest).bind fun models =>
          .done (models.map fun models => model :: models)

/-- `HTS_Stream_load_pdf_and_tree`. It is called with one model at least. -/
def streamLoadPdfAndTree (msd_flag : Bool) (files : List ModelFiles) :
    Outcome (Option HtsStream) :=
  (loadModels float outside msd_flag files).bind fun models =>
    match models with
    | none => .done none
    | some [] => .outOfBounds
    | some (first :: rest) =>
      if rest.all fun model => model.pdfs.vector_length = first.pdfs.vector_length then
        .done (some ⟨first.pdfs.vector_length, msd_flag, first :: rest⟩)
      else .exited differentVectors

end Load

/-! ## Lookups -/

/-- `model->pdf[tree_index][pdf_index]` -/
def PdfModel.at? (pdfs : PdfModel ℚ) (tree_index : Nat) (pdf_index : Int) : Option (Nat → ℚ) :=
  if 2 ≤ tree_index ∧ 1 ≤ pdf_index then
    (pdfs.pdf[tree_index - 2]?).bind fun table => table[(pdf_index - 1).toNat]?
  else none

/-- `mean`, `vari` and `*msd` -/
structure Sums where
  mean : Nat → ℚ
  vari : Nat → ℚ
  msd : ℚ

/-- The loops over `j`, and what follows them where there is a weight. -/
def Sums.add (sums : Sums) (size vector_length : Nat) (msd_flag : Bool) (iw : ℚ) (pdf : Nat → ℚ) :
    Sums where
  mean j := if j < size then sums.mean j + iw * pdf j else sums.mean j
  vari j := if j < size then sums.vari j + iw * iw * pdf (j + vector_length) else sums.vari j
  msd := if msd_flag then sums.msd + iw * pdf (2 * vector_length) else sums.msd

/-- The loop over the interpolated models, from number `i` on. -/
def interpolatePdfs (index : HtsModel → Option (Outcome (Nat × Int))) (size vector_length : Nat)
    (msd_flag : Bool) (iw : Nat → ℚ) : List HtsModel → Nat → Sums → Option (Outcome Sums)
  | [], _, sums => some (.done sums)
  | model :: rest, i, sums =>
    match index model with
    | none => none
    | some (.exited e) => some (.exited e)
    | some .outOfBounds => some .outOfBounds
    | some (.done (tree_index, pdf_index)) =>
      match model.pdfs.at? tree_index pdf_index with
      | none => some .outOfBounds
      | some pdf =>
        interpolatePdfs index size vector_length msd_flag iw rest (i + 1)
          (sums.add size vector_length msd_flag (iw i) pdf)

/-- `mean[i] = 0.0; vari[i] = 0.0;` -/
def cleared (size : Nat) (mean vari : Nat → ℚ) : Sums :=
  ⟨fun j => if j < size then 0 else mean j, fun j => if j < size then 0 else vari j, 0⟩

/-- `HTS_ModelSet_get_duration` -/
def getDuration (stream : HtsStream) (nstate : Nat) (string : Str) (mean vari iw : Nat → ℚ) :
    Option (Outcome Sums) :=
  interpolatePdfs (fun model => getDurationIndex model.trees string) nstate stream.vector_length
    false iw stream.model 0 (cleared nstate mean vari)

/-- `HTS_ModelSet_get_parameter` -/
def getParameter (stream : HtsStream) (state_index : Int) (string : Str) (mean vari : Nat → ℚ)
    (iw : Nat → ℚ) : Option (Outcome Sums) :=
  interpolatePdfs (fun model => getParameterIndex model.trees state_index string)
    stream.vector_length stream.vector_length stream.msd_flag iw stream.model 0
    (cleared stream.vector_length mean vari)

/-- `HTS_ModelSet_get_gv`, of models that all have trees. -/
def getGv (stream : HtsStream) (string : Str) (mean vari iw : Nat → ℚ) : Option (Outcome Sums) :=
  interpolatePdfs (fun model => getGvIndex true model.trees string) stream.vector_length
    stream.vector_length false iw stream.model 0 (cleared stream.vector_length mean vari)

/-! ## Sums -/

/-- What is added up for pdfs that are given. -/
theorem sums_foldl {pdf : Nat → Nat → ℚ} {size vector_length : Nat} {msd_flag : Bool}
    {iw : Nat → ℚ} (n : Nat) (sums : Sums) :
    (List.range n).foldl (fun sums i => sums.add size vector_length msd_flag (iw i) (pdf i)) sums =
      ⟨fun j => if j < size then
          (List.range n).foldl (fun sum i => sum + iw i * pdf i j) (sums.mean j)
        else sums.mean j,
      fun j => if j < size then
          (List.range n).foldl (fun sum i => sum + iw i * iw i * pdf i (j + vector_length))
            (sums.vari j)
        else sums.vari j,
      if msd_flag then
          (List.range n).foldl (fun sum i => sum + iw i * pdf i (2 * vector_length)) sums.msd
        else sums.msd⟩ := by
  induction n with
  | zero => simp
  | succ n ih =>
    simp only [List.range_succ, List.foldl_append, List.foldl_cons, List.foldl_nil]
    rw [ih, Sums.add]
    congr 1
    · funext j
      by_cases hj : j < size <;> simp [hj]
    · funext j
      by_cases hj : j < size <;> simp [hj]
    · by_cases hmsd : msd_flag = true <;> simp [hmsd]

/-! ## What the files say -/

/-- The numbers that a tree can decide on. -/
def NumberedTree.decisions : NumberedTree → List Int
  | .leaf name => [leafNumber name]
  | .node _ _ no yes => no.decisions ++ yes.decisions

/-- A tree decides for one of its leaves. -/
theorem NumberedTree.eval_mem_decisions (t : NumberedTree) (string : Str) :
    t.eval string ∈ t.decisions := by
  induction t with
  | leaf name => exact List.mem_singleton_self _
  | node index question no yes ihno ihyes =>
    rw [eval, decisions, List.mem_append]
    split
    · exact Or.inr ihyes
    · exact Or.inl ihno

/-- The files of a model. -/
structure Source (float : BitVec 32 → ℚ) (outside : ℚ → Bool) (msd_flag : Bool) where
  file : ModelFile
  treeText : Str
  spells : Spells file.tokens treeText
  short : ∀ t ∈ file.tokens, t.length < hts_maxbuflen
  pdfs : PdfModel ℚ
  pdfText : Bytes
  isPdfFile : IsPdfFile float outside msd_flag file.trees.length pdfText pdfs
  /-- A tree decides on numbers of pdfs that the other file has for it. -/
  fits : ∀ (i : Nat) (t : HeadedTree) (n : Nat), file.trees[i]? = some t → pdfs.npdf[i]? = some n →
    ∀ d ∈ t.written.tree.decisions, 1 ≤ d ∧ d ≤ n

namespace Source

variable {float : BitVec 32 → ℚ} {outside : ℚ → Bool} {msd_flag : Bool}

def files (s : Source float outside msd_flag) : ModelFiles :=
  ⟨some s.pdfText, some ⟨s.treeText, false⟩⟩

/-- The files have this pdf for a label. -/
def Says (s : Source float outside msd_flag) (wanted : Int → Bool) (string : Str) (pdf : Nat → ℚ) :
    Prop :=
  ∃ i t table, FirstWith s.file.trees (HeadedTree.For wanted string) i t ∧
    s.pdfs.pdf[i]? = some table ∧
    table[(t.written.tree.eval string - 1).toNat]? = some pdf

/-- A label has a pdf when one of the trees is for it. -/
theorem exists_says (s : Source float outside msd_flag) {wanted : Int → Bool} {string : Str}
    {i : Nat} {t : HeadedTree} (h : FirstWith s.file.trees (HeadedTree.For wanted string) i t) :
    ∃ pdf, s.Says wanted string pdf := by
  have hi := (List.getElem?_eq_some_iff.mp h.at_).1
  have hcount : s.pdfs.npdf.length = s.file.trees.length := by
    rw [s.isPdfFile.npdf, List.length_map, List.length_range]
  have hlength : s.pdfs.pdf.length = s.pdfs.npdf.length := by
    rw [← s.isPdfFile.tables, List.length_map]
  obtain ⟨table, htable⟩ : ∃ table, s.pdfs.pdf[i]? = some table :=
    ⟨_, List.getElem?_eq_getElem (by omega)⟩
  have hn : s.pdfs.npdf[i]? = some table.length := by
    rw [← s.isPdfFile.tables, List.getElem?_map, htable]
    rfl
  obtain ⟨hone, hle⟩ := s.fits i t _ h.at_ hn _ (t.written.tree.eval_mem_decisions string)
  exact ⟨_, i, t, table, h, htable, List.getElem?_eq_getElem (by omega)⟩

/-- Two pdfs of a label are the same. -/
theorem says_unique (s : Source float outside msd_flag) {wanted : Int → Bool} {string : Str}
    {pdf pdf' : Nat → ℚ} (h : s.Says wanted string pdf) (h' : s.Says wanted string pdf') :
    pdf = pdf' := by
  obtain ⟨i, t, table, hfirst, htable, hpdf⟩ := h
  obtain ⟨i', t', table', hfirst', htable', hpdf'⟩ := h'
  obtain ⟨rfl, rfl⟩ := hfirst.unique hfirst'
  obtain rfl := Option.some.inj (htable.symm.trans htable')
  exact Option.some.inj (hpdf.symm.trans hpdf')

end Source

/-- A model that was loaded from its files. -/
structure LoadedFrom {float : BitVec 32 → ℚ} {outside : ℚ → Bool} {msd_flag : Bool}
    (s : Source float outside msd_flag) (model : HtsModel) : Prop where
  pdfs : model.pdfs = s.pdfs
  sound : model.trees.Sound
  loads : List.Forall₂ Loads s.file.trees model.trees.tree

section Loaded

variable {float : BitVec 32 → ℚ} {outside : ℚ → Bool} {msd_flag : Bool}

theorem loadModel_files (s : Source float outside msd_flag) :
    ∃ model, loadModel float outside msd_flag s.files = .done (some model) ∧
      LoadedFrom s model := by
  obtain ⟨trees, hload, -, hloads⟩ := modelLoadTree_spells s.file s.spells s.short
  have hpdfs := load_of_isPdfFile s.isPdfFile []
  rw [List.append_nil, hloads.length_eq] at hpdfs
  refine ⟨⟨trees, s.pdfs⟩, ?_, ⟨rfl, sound_modelLoadTree hload, hloads⟩⟩
  unfold loadModel Source.files
  dsimp only
  rw [hload, Outcome.bind_done]
  dsimp only
  rw [hpdfs, Outcome.bind_done]
  rfl

/-- So do all models of a voice, in their order. -/
theorem loadModels_files (sources : List (Source float outside msd_flag)) :
    ∃ models, loadModels float outside msd_flag (sources.map Source.files) = .done (some models) ∧
      List.Forall₂ LoadedFrom sources models := by
  induction sources with
  | nil => exact ⟨[], rfl, .nil⟩
  | cons s sources ih =>
    obtain ⟨model, hmodel, hfrom⟩ := loadModel_files s
    obtain ⟨models, hmodels, hall⟩ := ih
    refine ⟨model :: models, ?_, .cons hfrom hall⟩
    rw [List.map_cons, loadModels, hmodel, Outcome.bind_done]
    dsimp only
    rw [hmodels, Outcome.bind_done]
    rfl

/-- The vector length of the files is that of the models. -/
theorem vector_length_loaded {sources : List (Source float outside msd_flag)}
    {models : List HtsModel} (hall : List.Forall₂ LoadedFrom sources models) {vector_length : Nat}
    (hlength : ∀ s ∈ sources, s.pdfs.vector_length = vector_length) :
    ∀ model ∈ models, model.pdfs.vector_length = vector_length := by
  induction hall with
  | nil => exact fun model h => absurd h List.not_mem_nil
  | @cons s model sources models hfrom hall ih =>
    intro m hm
    rcases List.mem_cons.mp hm with rfl | hm
    · rw [hfrom.pdfs]
      exact hlength s List.mem_cons_self
    · exact ih (fun s' hs' => hlength s' (List.mem_cons_of_mem s hs')) m hm

/-- **A stream is loaded** from files whose vectors have one length. -/
theorem streamLoad_files {sources : List (Source float outside msd_flag)} (hne : sources ≠ [])
    {vector_length : Nat} (hlength : ∀ s ∈ sources, s.pdfs.vector_length = vector_length) :
    ∃ models, streamLoadPdfAndTree float outside msd_flag (sources.map Source.files)
        = .done (some ⟨vector_length, msd_flag, models⟩) ∧
      List.Forall₂ LoadedFrom sources models := by
  obtain ⟨models, hload, hall⟩ := loadModels_files sources
  refine ⟨models, ?_, hall⟩
  rw [streamLoadPdfAndTree, hload, Outcome.bind_done]
  have hlengths := vector_length_loaded hall hlength
  cases hall with
  | nil => exact absurd rfl hne
  | @cons s model sources models hfrom hall =>
    have hfirst := hlengths model List.mem_cons_self
    have hrest : (models.all fun model => model.pdfs.vector_length = vector_length) = true := by
      rw [List.all_eq_true]
      exact fun m hm => decide_eq_true (hlengths m (List.mem_cons_of_mem model hm))
    dsimp only
    rw [hfirst, if_pos hrest]

/-- A pdf that is said is the one that is found. -/
theorem at?_of_says {s : Source float outside msd_flag} {model : HtsModel}
    (hfrom : LoadedFrom s model) {wanted : Int → Bool} {string : Str} {pdf : Nat → ℚ}
    (h : s.Says wanted string pdf) (cannotFind : Exit) :
    ∃ tree_index pdf_index,
      indexFrom cannotFind (fun tree => wanted tree.state) string model.trees.tree 2
        = some (.done (tree_index, pdf_index)) ∧
      model.pdfs.at? tree_index pdf_index = some pdf := by
  obtain ⟨i, t, table, hfirst, htable, hpdf⟩ := h
  rcases indexFrom_loads hfrom.sound hfrom.loads cannotFind wanted string with
    ⟨i', t', hfirst', heq⟩ | ⟨hnone, -⟩
  · obtain ⟨rfl, rfl⟩ := hfirst.unique hfirst'
    refine ⟨_, _, heq, ?_⟩
    have hn : s.pdfs.npdf[i]? = some table.length := by
      rw [← s.isPdfFile.tables, List.getElem?_map, htable]
      rfl
    obtain ⟨hone, -⟩ :=
      s.fits i t _ hfirst.at_ hn _ (t.written.tree.eval_mem_decisions string)
    rw [hfrom.pdfs, PdfModel.at?, if_pos ⟨by omega, hone⟩, Nat.add_sub_cancel_left, htable]
    exact hpdf
  · exact absurd hfirst.holds (hnone t (List.mem_of_getElem? hfirst.at_))

/-- **The loop over the models** adds up the pdfs that are said. -/
theorem interpolatePdfs_loaded {sources : List (Source float outside msd_flag)}
    {models : List HtsModel} (hall : List.Forall₂ LoadedFrom sources models)
    {wanted : Int → Bool} {string : Str} {index : HtsModel → Option (Outcome (Nat × Int))}
    {cannotFind : Exit} (hindex : ∀ model, index model = indexFrom cannotFind
      (fun tree => wanted tree.state) string model.trees.tree 2)
    (size vector_length : Nat) (flag : Bool) (iw : Nat → ℚ) {pdf : Nat → Nat → ℚ} {i : Nat}
    (hpdf : ∀ j (s : Source float outside msd_flag), sources[j]? = some s →
      s.Says wanted string (pdf (i + j))) (sums : Sums) :
    interpolatePdfs index size vector_length flag iw models i sums
      = some (.done ((List.range' i sources.length).foldl
        (fun sums k => sums.add size vector_length flag (iw k) (pdf k)) sums)) := by
  induction hall generalizing i sums with
  | nil => rfl
  | @cons s model sources models hfrom hall ih =>
    have hfirst : s.Says wanted string (pdf i) := hpdf 0 s rfl
    obtain ⟨tree_index, pdf_index, hlookup, hat⟩ := at?_of_says hfrom hfirst cannotFind
    rw [interpolatePdfs, hindex, hlookup]
    dsimp only
    rw [hat]
    dsimp only
    rw [ih fun j s' hs' => by
      have := hpdf (j + 1) s' hs'
      rwa [show i + (j + 1) = i + 1 + j by omega] at this]
    rfl

end Loaded

/-! ## Against the voices of `Vox.Mage` -/

section Describes

variable {float : BitVec 32 → ℚ} {outside : ℚ → Bool} {msd_flag : Bool}

/-- The pdfs of a stream are those that its files say for a label. -/
structure Describes (sources : List (Source float outside msd_flag)) (vector_length : Nat)
    (wanted : Int → Bool) (string : Str) (pdfs : Pdfs) : Prop where
  vector_length : pdfs.vector_length = vector_length
  interpolation_size : pdfs.interpolation_size = sources.length
  pdf : ∀ i (s : Source float outside msd_flag), sources[i]? = some s →
    s.Says wanted string (pdfs.pdf string i)

/-- The pdfs of a state. -/
def statePdfs (stream : Stream) (state_index : Nat) : Pdfs :=
  ⟨stream.vector_length, stream.interpolation_size, fun string => stream.pdf string state_index⟩

/-- Without spaces there is no weight. -/
theorem weight_of_says (hflag : msd_flag = false) {s : Source float outside msd_flag}
    {wanted : Int → Bool} {string : Str} {pdf : Nat → ℚ} (h : s.Says wanted string pdf) :
    pdf (2 * s.pdfs.vector_length) = 0 := by
  obtain ⟨i, t, table, -, htable, hpdf⟩ := h
  have hmem : pdf ∈ s.pdfs.pdf.flatten :=
    List.mem_flatten.mpr ⟨table, List.mem_of_getElem? htable, List.mem_of_getElem? hpdf⟩
  obtain ⟨r, hr⟩ := List.getElem?_of_mem hmem
  have hone : spaces msd_flag (word s.pdfText 1).toInt.toNat = 1 :=
    if_neg (Bool.not_eq_true _ ▸ hflag)
  refine (s.isPdfFile.rows r pdf hr).rest _ (fun l hl m hm => ?_) fun h =>
    Bool.noConfusion (hflag.symm.trans h)
  rw [hone] at hl hm ⊢
  obtain rfl : l = 0 := by omega
  rw [Nat.div_one] at hm
  rw [Nat.zero_mul, Nat.zero_div]
  omega

/-- The MSD value is cleared, whether or not the stream has weights. -/
theorem msd_of_describes {sources : List (Source float outside msd_flag)} {vector_length : Nat}
    {wanted : Int → Bool} {string : Str} {pdfs : Pdfs}
    (hpdfs : Describes sources vector_length wanted string pdfs)
    (hlength : ∀ s ∈ sources, s.pdfs.vector_length = vector_length) (iw : Nat → ℚ) :
    (if msd_flag then
        interpolate pdfs.interpolation_size iw fun i => pdfs.pdf string i (2 * vector_length)
      else 0)
      = interpolate pdfs.interpolation_size iw fun i => pdfs.pdf string i (2 * vector_length) := by
  split
  case isTrue => rfl
  case isFalse hflag =>
    -- without spaces no weight was stored, so every term is zero
    have hzero : ∀ i < sources.length, pdfs.pdf string i (2 * vector_length) = 0 := by
      intro i hi
      have hs := List.getElem?_eq_getElem hi
      rw [← hlength _ (List.getElem_mem hi)]
      exact weight_of_says (Bool.eq_false_of_not_eq_true hflag) (hpdfs.pdf i _ hs)
    rw [interpolate, hpdfs.interpolation_size]
    generalize sources.length = n at hzero
    induction n with
    | zero => rfl
    | succ n ih =>
      rw [List.range_succ, List.foldl_append, ← ih fun i hi => hzero i (by omega)]
      simp [hzero n (by omega)]

/-- What is added up, as `Vox.Mage` does it. -/
theorem interpolatePdfs_eq {sources : List (Source float outside msd_flag)} {vector_length : Nat}
    {models : List HtsModel} (hall : List.Forall₂ LoadedFrom sources models)
    {wanted : Int → Bool} {string : Str} {index : HtsModel → Option (Outcome (Nat × Int))}
    {cannotFind : Exit}
    (hindex : ∀ model, index model = indexFrom cannotFind
      (fun tree => wanted tree.state) string model.trees.tree 2) {pdfs : Pdfs}
    (hpdfs : Describes sources vector_length wanted string pdfs) (size : Nat) (flag : Bool)
    (iw mean vari : Nat → ℚ) :
    interpolatePdfs index size vector_length flag iw models 0 (cleared size mean vari)
      = some (.done
        ⟨fun j => if j < size then
            interpolate pdfs.interpolation_size iw fun i => pdfs.pdf string i j
          else mean j,
        fun j => if j < size then
            interpolateSquared pdfs.interpolation_size iw fun i =>
              pdfs.pdf string i (j + pdfs.vector_length)
          else vari j,
        if flag then
          interpolate pdfs.interpolation_size iw fun i => pdfs.pdf string i (2 * vector_length)
        else 0⟩) := by
  have hsaid : ∀ j (s : Source float outside msd_flag), sources[j]? = some s →
      s.Says wanted string (pdfs.pdf string (0 + j)) := by
    intro j s hs
    rw [Nat.zero_add]
    exact hpdfs.pdf j s hs
  rw [interpolatePdfs_loaded hall hindex size vector_length flag iw hsaid, ← List.range_eq_range',
    sums_foldl, hpdfs.interpolation_size, hpdfs.vector_length]
  unfold cleared
  congr 3
  · funext j
    by_cases hj : j < size <;> simp [hj, interpolate]
  · funext j
    by_cases hj : j < size <;> simp [hj, interpolateSquared]

/-- **A stream that was loaded has the pdfs of its files.** `HTS_ModelSet_get_duration`,
`get_parameter` and `get_gv` find a pdf in each of the interpolated models, and what they add up
is what the voices of `Vox.Mage` give for these pdfs. -/
theorem lookups_of_files {sources : List (Source float outside msd_flag)} (hne : sources ≠ [])
    {vector_length : Nat} (hlength : ∀ s ∈ sources, s.pdfs.vector_length = vector_length) :
    ∃ stream, streamLoadPdfAndTree float outside msd_flag (sources.map Source.files)
        = .done (some stream) ∧
      ∀ (ms : ModelSet) (string : Str) (mean vari iw : Nat → ℚ),
        (ms.nstate = vector_length →
          Describes sources vector_length (fun _ => true) string ms.duration →
          ∃ sums, getDuration stream ms.nstate string mean vari iw = some (.done sums) ∧
            (sums.mean, sums.vari) = HTS_ModelSet_get_duration ms string mean vari iw) ∧
        (∀ stream_index state_index : Nat,
          Describes sources vector_length (fun state => state = state_index) string
            (statePdfs (ms.stream stream_index) state_index) →
          ∃ sums, getParameter stream state_index string mean vari iw = some (.done sums) ∧
            (sums.mean, sums.vari, sums.msd) = HTS_ModelSet_get_parameter ms string mean vari
              stream_index state_index iw) ∧
        (∀ gv : Pdfs, Describes sources vector_length (fun _ => true) string gv →
          ∃ sums, getGv stream string mean vari iw = some (.done sums) ∧
            (sums.mean, sums.vari) = HTS_ModelSet_get_gv gv string mean vari iw) := by
  -- the stream loads; the three lookups differ in their trees only
  obtain ⟨models, hload, hall⟩ := streamLoad_files hne hlength
  refine ⟨_, hload, fun ms string mean vari iw => ⟨fun hnstate hpdfs => ?_,
    fun stream_index state_index hpdfs => ?_, fun gv hpdfs => ?_⟩⟩
  · refine ⟨_, interpolatePdfs_eq hall (fun model => rfl) hpdfs ms.nstate false iw mean
      vari, rfl⟩
  · refine ⟨_, interpolatePdfs_eq hall (fun model => rfl) hpdfs vector_length msd_flag iw
      mean vari, ?_⟩
    rw [HTS_ModelSet_get_parameter, msd_of_describes hpdfs hlength iw]
    have hvector : (ms.stream stream_index).vector_length = vector_length := hpdfs.vector_length
    rw [hvector]
    unfold statePdfs
    rw [hvector]
  · refine ⟨_, interpolatePdfs_eq hall (fun model => rfl) hpdfs vector_length false iw
      mean vari, ?_⟩
    rw [HTS_ModelSet_get_gv, hpdfs.vector_length]

end Describes

/-- Two pdfs of a space with one pair. -/
def vowelPdfText : Bytes :=
  [0, 0, 0, 1, 0, 0, 0, 1, 0, 0, 0, 1, 0, 0, 0, 2, 0, 0, 0, 5, 0, 0, 0, 7, 0, 0, 0, 1,
    0, 0, 0, 0, 0, 0, 0, 3, 0, 0, 0, 9, 0, 0, 0, 1, 0, 0, 0, 0]

def vowelPdf (r : Nat) : Nat → ℚ :=
  putRow (fun w => (w.toNat : ℚ)) true 1 1 (rowText true 1 1 vowelPdfText r)

/-- The model with these pdfs, for one tree. -/
def vowelPdfs : PdfModel ℚ := ⟨1, [2], [[vowelPdf 0, vowelPdf 1]]⟩

theorem isPdfFile_vowelPdfs :
    IsPdfFile (fun w => (w.toNat : ℚ)) (fun _ => false) true 1 vowelPdfText vowelPdfs where
  ntree_pos := by decide
  flag := by decide
  ssize := by decide
  vector_length := by decide
  vector_length_pos := by decide
  npdf := by decide
  npdf_pos := by decide
  length := by decide
  fits := by
    intro r _
    refine ⟨by decide, fun _ l hl => ⟨fun _ => ?_, fun _ => rfl⟩⟩
    -- one space
    have hone : (word vowelPdfText 1).toInt.toNat = 1 := by decide
    obtain rfl : l = 0 := by omega
    decide
  tables := rfl
  rows := by
    intro r row h
    have hflat : vowelPdfs.pdf.flatten = (List.range 2).map vowelPdf := rfl
    rw [hflat, List.getElem?_map] at h
    obtain ⟨k, hk, rfl⟩ := Option.map_eq_some_iff.mp h
    obtain ⟨-, rfl⟩ := List.getElem?_eq_some_iff.mp hk
    rw [List.getElem_range]
    exact isRow_putRow (by decide) 1 _

/-- The model of `vowelFile`, with these pdfs. -/
def vowelSource : Source (fun w => (w.toNat : ℚ)) (fun _ => false) true where
  file := vowelFile
  treeText := vowelFile.tokens.flatMap fun t => t ++ [' ']
  spells := spells_vowelFile
  short := short_vowelFile
  pdfs := vowelPdfs
  pdfText := vowelPdfText
  isPdfFile := isPdfFile_vowelPdfs
  fits := by
    intro i t n ht hn
    have hall : ∀ t ∈ vowelFile.trees, ∀ d ∈ t.written.tree.decisions,
        1 ≤ d ∧ d ≤ ((2 : Nat) : Int) := by
      decide +kernel
    obtain rfl : n = 2 := List.mem_singleton.mp (List.mem_of_getElem? hn)
    exact hall t (List.mem_of_getElem? ht)

/-- A voice with the pdfs of `vowelSource`. -/
def vowelVoice : ModelSet :=
  { plainVoice with stream := fun i =>
      { plainVoice.stream i with msd_flag := true, pdf := fun _ _ _ => vowelPdf 1 } }

/-- A voice of one model, from its two files. -/
theorem lookups_of_files_vowel :
    ∃ stream, streamLoadPdfAndTree (fun w => (w.toNat : ℚ)) (fun _ => false) true
        [vowelSource.files] = .done (some stream) ∧
      ∃ sums, getParameter stream (2 : Nat) "x^k-iy+n".toList 0 0 (fun _ => 1) = some (.done sums) ∧
        (sums.mean, sums.vari, sums.msd) = HTS_ModelSet_get_parameter vowelVoice
          "x^k-iy+n".toList 0 0 0 2 (fun _ => 1) := by
  have hpdfs : Describes [vowelSource] 1 (fun state => state = (2 : Nat)) "x^k-iy+n".toList
      (statePdfs (vowelVoice.stream 0) 2) := by
    refine ⟨rfl, rfl, fun i s hs => ?_⟩
    match i with
    | 0 =>
      obtain rfl := Option.some.inj hs
      exact ⟨0, _, _, ⟨rfl, ⟨by decide, Or.inr ⟨_, List.mem_singleton_self _, by decide⟩⟩,
        fun j hj => absurd hj (Nat.not_lt_zero j)⟩, rfl, rfl⟩
    | i + 1 => exact nomatch hs
  obtain ⟨stream, hload, hlookups⟩ := lookups_of_files (List.cons_ne_nil vowelSource [])
    (List.forall_mem_singleton.mpr rfl)
  exact ⟨stream, hload, (hlookups vowelVoice _ 0 0 fun _ => 1).2.1 0 2 hpdfs⟩

end Vox.Hts
