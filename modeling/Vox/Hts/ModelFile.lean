import Vox.Hts.TreeFile

/-!
# hts_engine — what a tree file means

A file has questions and trees, each tree behind the questions it asks. It can be laid out in
any way: the tokens bare or in quotes, with any blanks between them.

* `modelLoadTree_spells` — every such file is loaded, and each tree is represented by its nodes.
* `index_of_file` — so that the index functions return what the trees of the file decide.
-/

namespace Vox.Hts

open Lib Mage

/-! ## Questions -/

/-- A question as it is written. -/
def Question.tokens (question : Question) : List Str :=
  "QS".toList :: question.string :: ['{'] :: (question.head.intersperse [','] ++ [['}']])

theorem mem_intersperse {α : Type*} {x : α} {xs : List α} (h : x ∈ xs) (sep : α) :
    x ∈ xs.intersperse sep := by
  induction xs with
  | nil => exact h
  | cons y xs ih =>
    cases xs with
    | nil => exact h
    | cons z xs =>
      rw [List.intersperse_cons_cons]
      rcases List.mem_cons.mp h with rfl | h
      · exact List.mem_cons_self
      · exact List.mem_cons_of_mem _ (List.mem_cons_of_mem _ (ih h))

/-- A pattern and what is behind it. -/
theorem loadPatterns_eq {fp fp₁ fp₂ : File} {pattern buff : Str}
    (hpattern : getPatternToken fp = some (some pattern, fp₁))
    (hbuff : getPatternToken fp₁ = some (some buff, fp₂)) (head : List Str) :
    loadPatterns fp head = if buff = ['}'] then .done (some (head ++ [pattern]), fp₂)
      else loadPatterns fp₂ (head ++ [pattern]) := by
  rw [loadPatterns]
  split
  next hnone => exact nomatch hnone.symm.trans hpattern
  next hnone => exact nomatch hnone.symm.trans hpattern
  next t fp₁' hsome =>
    obtain ⟨ht, rfl⟩ := Prod.mk.inj (Option.some.inj (hsome.symm.trans hpattern))
    obtain rfl := Option.some.inj ht
    split
    next hnone => exact nomatch hnone.symm.trans hbuff
    next hnone => exact nomatch hnone.symm.trans hbuff
    next t' fp₂' hsome' =>
      obtain ⟨ht', rfl⟩ := Prod.mk.inj (Option.some.inj (hsome'.symm.trans hbuff))
      rw [Option.some.inj ht']

/-- The patterns between the braces, with commas between them. -/
theorem loadPatterns_spells {patterns : List Str} (hne : patterns ≠ []) {ts : List Str}
    {text : Str} (hlength : ∀ p ∈ patterns, p.length < hts_maxbuflen)
    (hspells : Spells (patterns.intersperse [','] ++ ['}'] :: ts) text) (head : List Str) :
    ∃ rest, loadPatterns ⟨text, false⟩ head = .done (some (head ++ patterns), ⟨rest, false⟩) ∧
      Spells ts rest := by
  induction patterns generalizing text head with
  | nil => exact absurd rfl hne
  | cons pattern patterns ih =>
    have hpattern := hlength pattern List.mem_cons_self
    cases patterns with
    | nil =>
      obtain ⟨rest, htoken, hrest⟩ := getPatternToken_spells hspells hpattern
      obtain ⟨rest₁, htoken₁, hrest₁⟩ := getPatternToken_spells hrest (by decide)
      exact ⟨rest₁, by rw [loadPatterns_eq htoken htoken₁, if_pos rfl], hrest₁⟩
    | cons next patterns =>
      rw [List.intersperse_cons_cons, List.cons_append, List.cons_append] at hspells
      obtain ⟨rest, htoken, hrest⟩ := getPatternToken_spells hspells hpattern
      obtain ⟨rest₁, htoken₁, hrest₁⟩ := getPatternToken_spells hrest (by decide)
      obtain ⟨rest₂, hload, hrest₂⟩ := ih (List.cons_ne_nil _ _)
        (fun p hp => hlength p (List.mem_cons_of_mem _ hp)) hrest₁ (head ++ [pattern])
      refine ⟨rest₂, ?_, hrest₂⟩
      rw [loadPatterns_eq htoken htoken₁, if_neg (by decide), hload, List.append_assoc,
        List.singleton_append]

/-- A question is read off a text that spells it. -/
theorem questionLoad_spells {question : Question} (hne : question.head ≠ []) {ts : List Str}
    {text : Str} (hlength : ∀ t ∈ question.tokens, t.length < hts_maxbuflen)
    (hspells : Spells (question.tokens.tail ++ ts) text) :
    ∃ rest, questionLoad ⟨text, false⟩ = .done (some question, ⟨rest, false⟩) ∧
      Spells ts rest := by
  rw [Question.tokens, List.tail_cons, List.cons_append, List.cons_append, List.append_assoc]
    at hspells
  have hhead : ∀ p ∈ question.head, p.length < hts_maxbuflen := fun p hp =>
    hlength p (by simp [Question.tokens, mem_intersperse hp])
  unfold questionLoad
  obtain ⟨rest, heq, hrest⟩ := withToken_spells hspells (hlength _ (by simp [Question.tokens])) _
  obtain ⟨rest₁, heq₁, hrest₁⟩ := withToken_spells hrest (by decide) _
  obtain ⟨rest₂, hload, hrest₂⟩ := loadPatterns_spells hne hhead hrest₁ []
  refine ⟨rest₂, ?_, hrest₂⟩
  rw [heq, heq₁, if_pos rfl, hload]
  rfl

/-! ## Entries -/

/-- A tree of a model as it is written. -/
structure HeadedTree where
  state : Int
  head : List Str
  written : WrittenTree
  state_ne : state ≠ 0
  inRange : -intMax - 1 ≤ state ∧ state ≤ intMax
  plain : ∀ p ∈ head, PlainPattern p

def HeadedTree.tokens (t : HeadedTree) : List Str := headToken t.head t.state :: t.written.tokens

inductive Entry
  | question (q : Question)
  | tree (t : HeadedTree)

namespace Entry

def tokens : Entry → List Str
  | question q => q.tokens
  | tree t => t.tokens

def question? : Entry → Option Question
  | question q => some q
  | tree _ => none

def tree? : Entry → Option HeadedTree
  | question _ => none
  | tree t => some t

@[simp] theorem tokens_question (q : Question) : (question q).tokens = q.tokens := rfl

@[simp] theorem tokens_tree (t : HeadedTree) : (tree t).tokens = t.tokens := rfl

@[simp] theorem question?_question (q : Question) : (question q).question? = some q := rfl

@[simp] theorem question?_tree (t : HeadedTree) : (tree t).question? = none := rfl

@[simp] theorem tree?_question (q : Question) : (question q).tree? = none := rfl

@[simp] theorem tree?_tree (t : HeadedTree) : (tree t).tree? = some t := rfl

end Entry

/-- What the loader makes of a tree. -/
structure Loads (t : HeadedTree) (tree : Tree) : Prop where
  state : tree.state = t.state
  head : tree.head = t.head
  represents : Represents tree.nodes 0 t.written.tree

/-- `QS` adds a question to the model. -/
theorem loadEntry_question {question : Question} (hne : question.head ≠ []) {ts : List Str}
    {text : Str} (hlength : ∀ t ∈ question.tokens, t.length < hts_maxbuflen)
    (hspells : Spells (question.tokens.tail ++ ts) text) (model : TreeModel) :
    ∃ rest, loadEntry model "QS".toList ⟨text, false⟩
        = .done (some { model with question := model.question ++ [question] }, ⟨rest, false⟩) ∧
      Spells ts rest := by
  obtain ⟨rest, hload, hrest⟩ := questionLoad_spells hne hlength hspells
  refine ⟨rest, ?_, hrest⟩
  rw [loadEntry, loadQuestionEntry, if_pos rfl, hload]
  -- the buffer still holds `QS`, which has no number
  rfl

theorem headToken_ne {head : List Str} {state : Int} : headToken head state ≠ "QS".toList := by
  intro h
  have hmem : ']' ∈ headToken head state := by simp [headToken]
  rw [h] at hmem
  exact absurd hmem (by decide)

/-- The head of a tree adds a tree, whose questions are known by then. -/
theorem loadEntry_tree {model : TreeModel} {t : HeadedTree}
    (hknown : ∀ line ∈ t.written.lines, Known model.question line.question) {ts : List Str}
    {text : Str} (hlength : ∀ token ∈ t.tokens, token.length < hts_maxbuflen)
    (hspells : Spells (t.written.tokens ++ ts) text) :
    ∃ tree rest, loadEntry model (headToken t.head t.state) ⟨text, false⟩
        = .done (some { model with tree := model.tree ++ [tree] }, ⟨rest, false⟩) ∧
      Spells ts rest ∧ Loads t tree := by
  obtain ⟨nodes, rest, hload, hrest, hrepresents⟩ := treeLoad_spells t.written hknown
    (fun token h => hlength token (List.mem_cons_of_mem _ h)) hspells
  refine ⟨⟨t.state, t.head, nodes⟩, rest, ?_, hrest, ⟨rfl, rfl, hrepresents⟩⟩
  rw [loadEntry, loadQuestionEntry, if_neg headToken_ne, Outcome.bind_done]
  dsimp only
  rw [loadTreeEntry, getStateNum_headToken t.plain t.inRange.1 t.inRange.2]
  dsimp only
  rw [if_pos t.state_ne, treeParsePattern_headToken t.plain, hload]
  rfl

/-- A turn of the loop. -/
theorem loadEntries_eq {fp fp₁ fp₂ : File} {model model₁ : TreeModel} {buff : Str}
    (hfeof : fp.feof = false) (htoken : getPatternToken fp = some (some buff, fp₁))
    (hentry : loadEntry model buff fp₁ = .done (some model₁, fp₂)) :
    loadEntries fp model = loadEntries fp₂ model₁ := by
  rw [loadEntries, if_neg (by simp [hfeof])]
  split
  next hnone => cases hnone.symm.trans htoken
  next hnone => cases hnone.symm.trans htoken
  next t fp₁' hsome =>
    obtain ⟨ht, rfl⟩ := Prod.mk.inj (Option.some.inj (hsome.symm.trans htoken))
    obtain rfl := Option.some.inj ht
    split
    next hdone =>
      obtain ⟨hmodel, rfl⟩ := Prod.mk.inj (Outcome.done.inj (hdone.symm.trans hentry))
      rw [Option.some.inj hmodel]
    next hdone => cases hdone.symm.trans hentry
    next hdone => cases hdone.symm.trans hentry
    next hdone => cases hdone.symm.trans hentry

/-- Behind the last entry. The token that stands for the end is no entry. -/
theorem loadEntries_end {text : Str} (h : Spells [] text) (model : TreeModel) :
    loadEntries ⟨text, false⟩ model = .done (some model) := by
  have hentry : loadEntry model [eofChar] ⟨[], true⟩ = .done (some model, ⟨[], true⟩) := by
    rw [loadEntry, loadQuestionEntry, if_neg (by decide)]
    rfl
  rw [loadEntries_eq rfl (getPatternToken_end h) hentry, loadEntries, if_pos rfl]

/-- **The entries are loaded one after the other.** -/
theorem loadEntries_spells {entries : List Entry} (model : TreeModel) {text : Str}
    (hhead : ∀ question ∈ entries.filterMap Entry.question?, question.head ≠ [])
    (hknown : ∀ pre t post, entries = pre ++ .tree t :: post → ∀ line ∈ t.written.lines,
      Known (model.question ++ pre.filterMap Entry.question?) line.question)
    (hlength : ∀ t ∈ entries.flatMap Entry.tokens, t.length < hts_maxbuflen)
    (hspells : Spells (entries.flatMap Entry.tokens) text) :
    ∃ trees, loadEntries ⟨text, false⟩ model = .done (some
        ⟨model.question ++ entries.filterMap Entry.question?, model.tree ++ trees⟩) ∧
      List.Forall₂ Loads (entries.filterMap Entry.tree?) trees := by
  induction entries generalizing model text with
  | nil =>
    -- the end of the file
    refine ⟨[], ?_, .nil⟩
    rw [loadEntries_end hspells, List.filterMap_nil, List.append_nil, List.append_nil]
  | cons entry entries ih =>
    rw [List.flatMap_cons] at hlength hspells
    have hrestLength : ∀ t ∈ entries.flatMap Entry.tokens, t.length < hts_maxbuflen :=
      fun t ht => hlength t (List.mem_append_right _ ht)
    cases entry with
    | question question =>
      rw [Entry.tokens_question] at hlength hspells
      rw [List.filterMap_cons_some (Entry.question?_question question)] at hhead ⊢
      rw [List.filterMap_cons_none (Entry.tree?_question question)]
      -- a question is known to the trees behind it
      obtain ⟨rest, htoken, hrest⟩ := getPatternToken_spells (t := "QS".toList) hspells (by decide)
      obtain ⟨rest₁, hentry, hrest₁⟩ := loadEntry_question (hhead question List.mem_cons_self)
        (fun t ht => hlength t (List.mem_append_left _ ht)) hrest model
      obtain ⟨trees, hload, hloads⟩ := ih { model with
          question := model.question ++ [question] }
        (fun q hq => hhead q (List.mem_cons_of_mem _ hq))
        (fun pre t post heq line hline => by
          have := hknown (.question question :: pre) t post (by rw [heq, List.cons_append])
            line hline
          rwa [List.filterMap_cons_some (Entry.question?_question question),
            List.append_cons] at this)
        hrestLength hrest₁
      refine ⟨trees, ?_, hloads⟩
      rw [loadEntries_eq rfl htoken hentry, hload, List.append_assoc, List.singleton_append]
    | tree t =>
      rw [Entry.tokens_tree] at hlength hspells
      rw [List.filterMap_cons_none (Entry.question?_tree t)] at hhead ⊢
      rw [List.filterMap_cons_some (Entry.tree?_tree t)]
      have htokens : ∀ token ∈ t.tokens, token.length < hts_maxbuflen :=
        fun token ht => hlength token (List.mem_append_left _ ht)
      obtain ⟨rest, htoken, hrest⟩ := getPatternToken_spells (t := headToken t.head t.state)
        hspells (htokens _ List.mem_cons_self)
      -- a tree asks the questions before it
      have hlines : ∀ line ∈ t.written.lines, Known model.question line.question := by
        have := hknown [] t entries rfl
        rwa [List.filterMap_nil, List.append_nil] at this
      obtain ⟨tree, rest₁, hentry, hrest₁, hloadsTree⟩ := loadEntry_tree hlines htokens hrest
      obtain ⟨trees, hload, hloads⟩ := ih { model with tree := model.tree ++ [tree] }
        hhead (fun pre t' post heq line hline => by
          have := hknown (.tree t :: pre) t' post (by rw [heq, List.cons_append]) line hline
          rwa [List.filterMap_cons_none (Entry.question?_tree t)] at this) hrestLength hrest₁
      refine ⟨tree :: trees, ?_, .cons hloadsTree hloads⟩
      rw [loadEntries_eq rfl htoken hentry, hload, List.append_assoc, List.singleton_append]

/-! ## Files -/

/-- A file of questions and trees. -/
structure ModelFile where
  entries : List Entry
  head : ∀ question ∈ entries.filterMap Entry.question?, question.head ≠ []
  names : ((entries.filterMap Entry.question?).map Question.string).Nodup
  /-- A tree is behind the questions it asks. -/
  asked : ∀ pre t post, entries = pre ++ .tree t :: post → ∀ line ∈ t.written.lines,
    line.question ∈ pre.filterMap Entry.question?
  nonempty : entries.filterMap Entry.tree? ≠ []

namespace ModelFile

variable (file : ModelFile)

def tokens : List Str := file.entries.flatMap Entry.tokens

def questions : List Question := file.entries.filterMap Entry.question?

def trees : List HeadedTree := file.entries.filterMap Entry.tree?

end ModelFile

/-- A question is found by its name when no two have one name. -/
theorem known_of_mem {questions : List Question} (hnames : (questions.map Question.string).Nodup)
    {question : Question} (h : question ∈ questions) : Known questions question := by
  have hfind : (questions.find? fun q => q.string = question.string) = some question := by
    induction questions with
    | nil => exact absurd h List.not_mem_nil
    | cons q questions ih =>
      obtain ⟨hq, hnames⟩ := List.nodup_cons.mp hnames
      rcases List.mem_cons.mp h with rfl | h
      · rw [List.find?_cons_of_pos (by simp)]
      · have hne : q.string ≠ question.string := fun heq =>
          hq (heq ▸ List.mem_map_of_mem h)
        rw [List.find?_cons_of_neg (by simpa using hne), ih hnames h]
  rw [Known, findQuestion, hfind]

/-- **Every file is loaded**, however it is laid out. -/
theorem modelLoadTree_spells (file : ModelFile) {text : Str} (hspells : Spells file.tokens text)
    (hlength : ∀ t ∈ file.tokens, t.length < hts_maxbuflen) :
    ∃ model, modelLoadTree ⟨text, false⟩ = .done (some model) ∧
      model.question = file.questions ∧ List.Forall₂ Loads file.trees model.tree := by
  -- a tree asks questions that stand before it, and no two have one name
  have hknown : ∀ pre t post, file.entries = pre ++ .tree t :: post → ∀ line ∈ t.written.lines,
      Known ([] ++ pre.filterMap Entry.question?) line.question := by
    intro pre t post heq line hline
    have hnames := file.names
    rw [heq, List.filterMap_append, List.map_append] at hnames
    exact known_of_mem hnames.of_append_left (file.asked pre t post heq line hline)
  obtain ⟨trees, hload, hloads⟩ := loadEntries_spells ⟨[], []⟩ file.head hknown hlength
    hspells
  refine ⟨⟨file.questions, trees⟩, ?_, rfl, hloads⟩
  -- a file without trees would be refused
  have hne : trees ≠ [] := by
    rintro rfl
    exact file.nonempty (List.forall₂_nil_right_iff.mp hloads)
  rw [modelLoadTree, hload, Outcome.bind_done]
  dsimp only
  rw [if_neg (by simpa using hne)]
  rfl

/-! ## What the index functions return -/

/-- A tree of a file that an index function looks for. -/
def HeadedTree.For (wanted : Int → Bool) (string : Str) (t : HeadedTree) : Prop :=
  wanted t.state = true ∧ AppliesTo t.head string

/-- The loaded tree is for the same labels and states. -/
theorem Loads.for_iff {t : HeadedTree} {tree : Tree} (h : Loads t tree) (wanted : Int → Bool)
    (string : Str) :
    tree.For (fun tree => wanted tree.state) string ↔ t.For wanted string := by
  rw [Tree.For, HeadedTree.For, h.state, h.head]

/-- The first tree of the model that applies is the first one of the file. -/
theorem firstWith_of_forall₂ {ts : List HeadedTree} {trees : List Tree}
    (h : List.Forall₂ Loads ts trees) {wanted : Int → Bool} {string : Str} {i : Nat} {tree : Tree}
    (hfirst : FirstWith trees (Tree.For (fun tree => wanted tree.state) string) i tree) :
    ∃ t, FirstWith ts (HeadedTree.For wanted string) i t ∧ Loads t tree := by
  induction h generalizing i with
  | nil => exact absurd hfirst.at_ (by simp)
  | @cons t tree' ts trees hloads hrest ih =>
    cases i with
    | zero =>
      obtain rfl : tree' = tree := by simpa using hfirst.at_
      exact ⟨t, ⟨rfl, (hloads.for_iff wanted string).mp hfirst.holds,
        fun j hj => absurd hj (Nat.not_lt_zero j)⟩, hloads⟩
    | succ i =>
      have hnot := hfirst.first 0 (Nat.succ_pos i) tree' rfl
      rw [hloads.for_iff] at hnot
      obtain ⟨t', ht', hloads'⟩ := ih ⟨hfirst.at_, hfirst.holds,
        fun j hj e he => hfirst.first (j + 1) (by omega) e he⟩
      exact ⟨t', ht'.cons hnot, hloads'⟩

/-- If no tree of the file applies, none of the model does. -/
theorem forall_of_forall₂ {ts : List HeadedTree} {trees : List Tree}
    (h : List.Forall₂ Loads ts trees) {wanted : Int → Bool} {string : Str}
    (hnone : ∀ tree ∈ trees, ¬ tree.For (fun tree => wanted tree.state) string) :
    ∀ t ∈ ts, ¬ t.For wanted string := by
  induction h with
  | nil => exact fun t ht => absurd ht List.not_mem_nil
  | @cons t tree ts trees hloads hrest ih =>
    intro t' ht'
    rcases List.mem_cons.mp ht' with rfl | ht'
    · rw [← hloads.for_iff]
      exact hnone tree List.mem_cons_self
    · exact ih (fun tree' h => hnone tree' (List.mem_cons_of_mem _ h)) t' ht'

theorem FirstWith.unique {α : Type*} {entries : List α} {p : α → Prop} {i j : Nat} {x y : α}
    (hi : FirstWith entries p i x) (hj : FirstWith entries p j y) : i = j ∧ x = y := by
  have hij : i = j := by
    rcases Nat.lt_trichotomy i j with hlt | heq | hlt
    · exact absurd hi.holds (hj.first i hlt x hi.at_)
    · exact heq
    · exact absurd hj.holds (hi.first j hlt y hj.at_)
  subst hij
  exact ⟨rfl, Option.some.inj (hi.at_.symm.trans hj.at_)⟩

/-- The loop over the trees of a model, against the trees of its file. -/
theorem indexFrom_loads {ts : List HeadedTree} {model : TreeModel} (hsound : model.Sound)
    (hloads : List.Forall₂ Loads ts model.tree) (cannotFind : Exit) (wanted : Int → Bool)
    (string : Str) :
    (∃ i t, FirstWith ts (HeadedTree.For wanted string) i t ∧
        indexFrom cannotFind (fun tree => wanted tree.state) string model.tree 2
          = some (.done (2 + i, t.written.tree.eval string))) ∨
      ((∀ t ∈ ts, ¬ t.For wanted string) ∧
        indexFrom cannotFind (fun tree => wanted tree.state) string model.tree 2
          = some (.exited cannotFind)) := by
  rcases indexFrom_eq cannotFind (fun tree => wanted tree.state) string
      (fun t ht => (hsound.tree t ht).2.2) 2 with ⟨i, tree, hfirst, heq⟩ | ⟨hnone, heq⟩
  · obtain ⟨t, ht, hloadsTree⟩ := firstWith_of_forall₂ hloads hfirst
    obtain ⟨hlinked, hpos, -⟩ := hsound.tree tree (List.mem_of_getElem? hfirst.at_)
    obtain ⟨pdf, hsearch, -⟩ :=
      searchFrom_linked hlinked string tree.nodes.length 0 hpos (by omega)
    have hpdf : pdf = t.written.tree.eval string :=
      Outcome.done.inj (hloadsTree.represents.search hlinked hpos hsearch)
    refine Or.inl ⟨i, t, ht, ?_⟩
    rw [heq, treeSearchNode, hsearch, hpdf]
    rfl
  · exact Or.inr ⟨forall_of_forall₂ hloads hnone, heq⟩

/-- **The index functions return what the file says.** For every label the index is that of the
first tree of the file which is for a wanted state and for the label, and the pdf is the one that
this tree decides on; or there is no such tree, and the process ends with the message that says
so. -/
theorem index_of_file (file : ModelFile) {text : Str} (hspells : Spells file.tokens text)
    (hlength : ∀ t ∈ file.tokens, t.length < hts_maxbuflen) :
    ∃ model, modelLoadTree ⟨text, false⟩ = .done (some model) ∧
      ∀ (cannotFind : Exit) (wanted : Int → Bool) (string : Str),
        (∃ i t, FirstWith file.trees (HeadedTree.For wanted string) i t ∧
          indexFrom cannotFind (fun tree => wanted tree.state) string model.tree 2
            = some (.done (2 + i, t.written.tree.eval string))) ∨
        ((∀ t ∈ file.trees, ¬ t.For wanted string) ∧
          indexFrom cannotFind (fun tree => wanted tree.state) string model.tree 2
            = some (.exited cannotFind)) := by
  obtain ⟨model, hload, -, hloads⟩ := modelLoadTree_spells file hspells hlength
  exact ⟨model, hload, indexFrom_loads (sound_modelLoadTree hload) hloads⟩

def vowelLine : Line :=
  ⟨0, ⟨"C-Vowel".toList, ["*-aa+*".toList, "*-iy+*".toList]⟩, .leaf "m_1".toList,
    .leaf "m_2".toList⟩

/-- A tree with one question. -/
def vowelTree : WrittenTree where
  tree := .node 0 vowelLine.question (.leaf "m_1".toList) (.leaf "m_2".toList)
  lines := [vowelLine]
  perm := List.Perm.refl _
  order := by
    intro pre line post heq
    cases pre with
    | nil => exact Or.inl (by rw [← (List.cons.inj heq).1]; rfl)
    | cons l pre => exact absurd (List.cons.inj heq).2 (by simp)
  root := Or.inr rfl
  nodup := by decide
  readable := by
    intro line hline
    rw [List.mem_singleton.mp hline]
    exact ⟨show isNum _ = false by decide, show isNum _ = false by decide⟩
  name := fun name h => nomatch h

/-- The file with this tree, for state 2. -/
def vowelFile : ModelFile where
  entries := [.question vowelLine.question, .tree {
    state := 2
    head := [['*']]
    written := vowelTree
    state_ne := by decide
    inRange := by decide
    plain := by
      intro p hp c hc
      rw [List.mem_singleton.mp hp] at hc
      rw [List.mem_singleton.mp hc]
      decide }]
  head := by
    intro question h
    rw [List.mem_singleton.mp h]
    decide
  names := by decide
  asked := by
    intro pre t post heq line hline
    cases pre with
    | nil => exact nomatch (List.cons.inj heq).1
    | cons e pre =>
      obtain ⟨rfl, hrest⟩ := List.cons.inj heq
      cases pre with
      | nil =>
        obtain ⟨htree, -⟩ := List.cons.inj hrest
        obtain rfl := Entry.tree.inj htree
        rw [List.mem_singleton.mp hline]
        exact List.mem_cons_self
      | cons e' pre => exact absurd (List.cons.inj hrest).2 (by simp)
  nonempty := List.cons_ne_nil _ _

theorem tokens_vowelFile :
    vowelFile.tokens = ["QS".toList, "C-Vowel".toList, ['{'], "*-aa+*".toList, [','],
      "*-iy+*".toList, ['}'], "\x7b*\x7d[2]".toList, ['{'], ['0'], "C-Vowel".toList,
      "m_1".toList, "m_2".toList, ['}']] := rfl

/-- A space behind each token spells the file. -/
theorem spells_vowelFile :
    Spells vowelFile.tokens (vowelFile.tokens.flatMap fun t => t ++ [' ']) := by
  refine spells_flatMap ?_
  rw [tokens_vowelFile]
  decide

theorem short_vowelFile : ∀ t ∈ vowelFile.tokens, t.length < hts_maxbuflen := by
  rw [tokens_vowelFile]
  decide +kernel

/-- The file with one question and one tree. -/
theorem index_of_file_vowel :
    ∃ model, modelLoadTree ⟨vowelFile.tokens.flatMap fun t => t ++ [' '], false⟩
        = .done (some model) ∧
      ∀ (cannotFind : Exit) (wanted : Int → Bool) (string : Str),
        (∃ i t, FirstWith vowelFile.trees (HeadedTree.For wanted string) i t ∧
          indexFrom cannotFind (fun tree => wanted tree.state) string model.tree 2
            = some (.done (2 + i, t.written.tree.eval string))) ∨
        ((∀ t ∈ vowelFile.trees, ¬ t.For wanted string) ∧
          indexFrom cannotFind (fun tree => wanted tree.state) string model.tree 2
            = some (.exited cannotFind)) :=
  index_of_file vowelFile spells_vowelFile short_vowelFile

end Vox.Hts
