import Mathlib.Data.List.DropRight
import Vox.Hts.Pattern
import Vox.Lib.Lines

/-!
# hts_engine — decision trees

`HTS_Model_load_tree` reads the questions and the trees of a model from a file, and the index
functions of `HTS_ModelSet` find the tree for a label and search it. A failed load is either
`FALSE` (`done none`), the end of the process in `HTS_error`, or a memory error.

* **Nodes.** `HTS_calloc` makes nodes and nothing moves them, so that a pointer to a node is its
  number in the order of allocation. The list that goes through the `next` pointers from
  `last_node` on holds all of them, the newest first.
* **Buffers.** A token is changed in place where its pieces are cut off. A C string ends at the
  first NUL that was written.
-/

namespace Vox.Hts

open Lib Mage

/-! ## Strings -/

/-- `strchr` -/
def strchr (string : Str) (c : Char) : Option Nat := string.idxOf? c

/-- `strrchr` -/
def strrchr (string : Str) (c : Char) : Option Nat :=
  (string.reverse.idxOf? c).map fun i => string.length - 1 - i

/-- `HTS_is_num` -/
def isNum (buff : Str) : Bool := buff.all fun c => c.isDigit || c == '-'

/-- `HTS_name2num`, which looks for the character before the last digits also where there is
none. -/
def name2num (buff : Str) : Option Int :=
  if buff.all Char.isDigit then none else some (atoi (buff.rtakeWhile Char.isDigit))

/-- `HTS_get_state_num`: the number, and the buffer without what follows. -/
def getStateNum (buff : Str) : Int × Str :=
  match strchr (c_str buff) '[', strrchr (c_str buff) ']' with
  | some left, some right =>
    let buff := buff.set right '\x00'
    (atoi (c_str (buff.drop (left + 1))), buff)
  | _, _ => (0, buff)

/-! ## Tokens -/

variable {α : Type*}

/-- `if( HTS_get_pattern_token( fp, buff ) == FALSE ) return FALSE;` -/
def withToken (fp : File) (k : Str → File → Outcome (Option α × File)) :
    Outcome (Option α × File) :=
  match getPatternToken fp with
  | none => .outOfBounds
  | some (none, fp) => .done (none, fp)
  | some (some buff, fp) => k buff fp

theorem withToken_eq_done {fp fp' : File} {k : Str → File → Outcome (Option α × File)} {r : α}
    (h : withToken fp k = .done (some r, fp')) :
    ∃ t fp₁, getPatternToken fp = some (some t, fp₁) ∧ k t fp₁ = .done (some r, fp') := by
  unfold withToken at h
  split at h
  · exact nomatch h
  · exact nomatch h
  next t fp₁ htoken => exact ⟨t, fp₁, htoken, h⟩

/-! ## Questions -/

/-- `HTS_Question` -/
structure Question where
  string : Str
  head : List Str
  deriving DecidableEq, Repr

/-- The loop over the patterns of a question. -/
def loadPatterns (fp : File) (head : List Str) : Outcome (Option (List Str) × File) :=
  match h : getPatternToken fp with
  | none => .outOfBounds
  | some (none, fp) => .done (none, fp)
  | some (some pattern, fp₁) =>
    match h₁ : getPatternToken fp₁ with
    | none => .outOfBounds
    | some (none, fp) => .done (none, fp)
    | some (some buff, fp₂) =>
      if buff = ['}'] then .done (some (head ++ [pattern]), fp₂)
      else loadPatterns fp₂ (head ++ [pattern])
termination_by fp.size
decreasing_by exact (size_getPatternToken h₁).trans (size_getPatternToken h)

/-- `HTS_Question_load` -/
def questionLoad (fp : File) : Outcome (Option Question × File) :=
  withToken fp fun string fp =>
    withToken fp fun buff fp =>
      if buff = ['{'] then
        (loadPatterns fp []).bind fun (head, fp) => .done (head.map (Question.mk string), fp)
      else .done (some ⟨string, []⟩, fp)

/-- A list of patterns: the first one that matches ends the loop. -/
def matchAny (string : Str) : List Str → Option Bool
  | [] => some false
  | pattern :: rest =>
    match patternMatch string pattern with
    | some false => matchAny string rest
    | found => found

/-- `HTS_Question_match` -/
def questionMatch (question : Question) (string : Str) : Option Bool :=
  matchAny string question.head

/-- `HTS_Question_find_question` -/
def findQuestion (questions : List Question) (buff : Str) : Outcome Question :=
  match questions.find? fun question => question.string = buff with
  | some question => .done question
  | none => .exited (.error ("HTS_Question_find_question: Cannot find question ".toList
      ++ buff ++ ".\n".toList))

/-! ## Trees -/

/-- `HTS_Node`, as `HTS_calloc` makes it. -/
structure Node where
  index : Int := 0
  pdf : Int := 0
  quest : Option Question := none
  yes : Option Nat := none
  no : Option Nat := none
  deriving DecidableEq, Repr

instance : Inhabited Node := ⟨{}⟩

/-- `HTS_Node_find` -/
def nodeFind (nodes : List Node) (num : Int) : Outcome Nat :=
  match (List.range nodes.length).reverse.find? fun a => (nodes.getD a default).index = num with
  | some a => .done a
  | none => .exited (.error ("HTS_Node_find: Cannot find node ".toList
      ++ (toString num).toList ++ ".\n".toList))

/-- The node that a token of a line names. -/
def childNode (buff : Str) : Outcome Node :=
  if isNum buff then .done { index := atoi buff }
  else
    match name2num buff with
    | none => .outOfBounds
    | some pdf => .done { pdf := pdf }

/-- A token of a line behind the question. Where there is none, `HTS_Tree_clear` follows a
pointer to a node that has been freed. -/
def withChild (fp : File) (k : Node → File → Outcome (Option α × File)) :
    Outcome (Option α × File) :=
  match getPatternToken fp with
  | none | some (none, _) => .outOfBounds
  | some (some buff, fp) => (childNode buff).bind fun node => k node fp

theorem withChild_eq_done {fp fp' : File} {k : Node → File → Outcome (Option α × File)} {r : α}
    (h : withChild fp k = .done (some r, fp')) :
    ∃ t fp₁ node, getPatternToken fp = some (some t, fp₁) ∧ childNode t = .done node ∧
      k node fp₁ = .done (some r, fp') := by
  unfold withChild at h
  split at h
  · exact nomatch h
  · exact nomatch h
  next t fp₁ htoken =>
    obtain ⟨node, hnode, hk⟩ := Outcome.bind_eq_done.mp h
    exact ⟨t, fp₁, node, htoken, hnode, hk⟩

/-- A line of a tree, behind its first token. -/
def loadLine (questions : List Question) (nodes : List Node) (buff : Str) (fp : File) :
    Outcome (Option (List Node) × File) :=
  (nodeFind nodes (atoi buff)).bind fun a =>
    withToken fp fun buff fp =>
      (findQuestion questions buff).bind fun quest =>
        withChild fp fun no fp =>
          withChild fp fun yes fp =>
            let node := { nodes.getD a default with
              quest := some quest, no := some nodes.length, yes := some (nodes.length + 1) }
            .done (some (nodes.set a node ++ [no, yes]), fp)

/-- What a line does. -/
theorem loadLine_eq_done {questions : List Question} {nodes nodes' : List Node} {buff : Str}
    {fp fp' : File} (h : loadLine questions nodes buff fp = .done (some nodes', fp')) :
    ∃ a quest no yes, nodeFind nodes (atoi buff) = .done a ∧ quest ∈ questions ∧
      (∃ t, childNode t = .done no) ∧ (∃ t, childNode t = .done yes) ∧
      nodes' = nodes.set a { nodes.getD a default with
        quest := some quest, no := some nodes.length, yes := some (nodes.length + 1) }
          ++ [no, yes] ∧
      fp'.size < fp.size := by
  -- the node, the question and the two children, in the order of the source
  obtain ⟨a, ha, h⟩ := Outcome.bind_eq_done.mp h
  obtain ⟨t, fp₁, ht, h⟩ := withToken_eq_done h
  obtain ⟨quest, hquest, h⟩ := Outcome.bind_eq_done.mp h
  obtain ⟨tno, fp₂, no, htno, hno, h⟩ := withChild_eq_done h
  obtain ⟨tyes, fp₃, yes, htyes, hyes, h⟩ := withChild_eq_done h
  obtain ⟨hnodes, rfl⟩ := Prod.mk.inj (Outcome.done.inj h)
  refine ⟨a, quest, no, yes, ha, ?_, ⟨tno, hno⟩, ⟨tyes, hyes⟩, (Option.some.inj hnodes).symm, ?_⟩
  · unfold findQuestion at hquest
    split at hquest
    next found hfound => exact Outcome.done.inj hquest ▸ List.mem_of_find?_eq_some hfound
    next => exact nomatch hquest
  · exact (size_getPatternToken htyes).trans
      ((size_getPatternToken htno).trans (size_getPatternToken ht))

/-- The loop over the lines of a tree. -/
def loadNodes (questions : List Question) (fp : File) (nodes : List Node) :
    Outcome (Option (List Node) × File) :=
  match h : getPatternToken fp with
  | none => .outOfBounds
  | some (none, fp) => .done (some nodes, fp)
  | some (some buff, fp₁) =>
    if buff = ['}'] then .done (some nodes, fp₁)
    else
      match h₁ : loadLine questions nodes buff fp₁ with
      | .done (some nodes, fp₂) => loadNodes questions fp₂ nodes
      | .done (none, fp) => .done (none, fp)
      | .exited e => .exited e
      | .outOfBounds => .outOfBounds
termination_by fp.size
decreasing_by
  obtain ⟨-, -, -, -, -, -, -, -, -, hsize⟩ := loadLine_eq_done h₁
  exact hsize.trans (size_getPatternToken h)

/-- `HTS_Tree`. The root is the first node. -/
structure Tree where
  state : Int
  head : List Str
  nodes : List Node
  deriving DecidableEq, Repr

/-- `HTS_Tree_load`. Where there is no token, `HTS_Tree_clear` follows a root that is NULL. -/
def treeLoad (questions : List Question) (fp : File) : Outcome (Option (List Node) × File) :=
  match getPatternToken fp with
  | none | some (none, _) => .outOfBounds
  | some (some buff, fp) =>
    if buff = ['{'] then loadNodes questions fp [{}]
    else
      match name2num buff with
      | none => .outOfBounds
      | some pdf => .done (some [{ pdf := pdf }], fp)

/-- `HTS_Tree_parse_pattern` -/
def treeParsePattern (buff : Str) : Option (List Str) :=
  match strchr (c_str buff) '{' with
  | none => some []
  | some left =>
    let string := (c_str buff).drop (left + 1)
    let string := if string.head? = some '(' then string.tail else string
    match strrchr string '}' with
    | none => none
    | some right =>
      let right := if 0 < right ∧ string[right - 1]? = some ')' then right - 1 else right
      -- every comma ends a pattern, also this one
      some (terminated ',' (string.set right ','))

/-- The loop of `HTS_Tree_search_node`, in at most `fuel` turns. -/
def searchFrom (nodes : List Node) (string : Str) : Nat → Nat → Option (Outcome Int)
  | 0, _ => none
  | fuel + 1, a =>
    match (nodes.getD a default).quest with
    | none => some (.done (nodes.getD a default).pdf)
    | some quest =>
      match questionMatch quest string with
      | none => some .outOfBounds
      | some holds =>
        match if holds then (nodes.getD a default).yes else (nodes.getD a default).no with
        | none => some .outOfBounds
        | some child =>
          if (nodes.getD child default).pdf > 0 then some (.done (nodes.getD child default).pdf)
          else searchFrom nodes string fuel child

/-- `HTS_Tree_search_node` -/
def treeSearchNode (tree : Tree) (string : Str) : Option (Outcome Int) :=
  searchFrom tree.nodes string tree.nodes.length 0

/-! ## Models -/

/-- **The rule of the patterns**: what a turn of the loop keeps, `loadPatterns` keeps. -/
theorem loadPatterns_invariant {I : File → List Str → Prop}
    (hturn : ∀ {fp fp₁ fp₂ pattern buff head}, I fp head →
      getPatternToken fp = some (some pattern, fp₁) →
      getPatternToken fp₁ = some (some buff, fp₂) → I fp₂ (head ++ [pattern]))
    {fp fp' : File} {head head' : List Str} (hI : I fp head)
    (h : loadPatterns fp head = .done (some head', fp')) : I fp' head' := by
  induction hn : fp.size using Nat.strong_induction_on generalizing fp head with
  | _ n ih =>
    rw [loadPatterns] at h
    split at h
    · cases h
    · cases h
    next pattern fp₁ htoken =>
      split at h
      · cases h
      · cases h
      next buff fp₂ htoken₁ =>
        have hnext := hturn hI htoken htoken₁
        split at h
        · obtain ⟨hhead, rfl⟩ := Prod.mk.inj (Outcome.done.inj h)
          exact Option.some.inj hhead ▸ hnext
        · -- two tokens were taken, so what is left is shorter
          have hsize := (size_getPatternToken htoken₁).trans (size_getPatternToken htoken)
          exact ih fp₂.size (hn ▸ hsize) hnext h rfl

theorem size_loadPatterns {fp fp' : File} {head head' : List Str}
    (h : loadPatterns fp head = .done (some head', fp')) : fp'.size ≤ fp.size :=
  loadPatterns_invariant (I := fun f _ => f.size ≤ fp.size)
    (fun hle ht ht₁ => ((size_getPatternToken ht₁).trans (size_getPatternToken ht)).le.trans hle)
    le_rfl h

/-- Reading a question makes it shorter. -/
theorem size_questionLoad {fp fp' : File} {question : Question}
    (h : questionLoad fp = .done (some question, fp')) : fp'.size < fp.size := by
  obtain ⟨t, fp₁, ht, h⟩ := withToken_eq_done h
  obtain ⟨u, fp₂, hu, h⟩ := withToken_eq_done h
  have hsize := (size_getPatternToken hu).trans (size_getPatternToken ht)
  split at h
  · obtain ⟨⟨head, fp₃⟩, hhead, h⟩ := Outcome.bind_eq_done.mp h
    obtain ⟨hmap, rfl⟩ := Prod.mk.inj (Outcome.done.inj h)
    obtain ⟨head, rfl, -⟩ := Option.map_eq_some_iff.mp hmap
    exact (size_loadPatterns hhead).trans_lt hsize
  · obtain ⟨-, rfl⟩ := Prod.mk.inj (Outcome.done.inj h)
    exact hsize

/-- **The rule of the lines**: what tokens and lines keep, `loadNodes` keeps. -/
theorem loadNodes_invariant {questions : List Question} {I : File → List Node → Prop}
    (htoken : ∀ {fp fp' t nodes}, I fp nodes → getPatternToken fp = some (t, fp') → I fp' nodes)
    (hline : ∀ {buff fp fp' nodes nodes'}, I fp nodes →
      loadLine questions nodes buff fp = .done (some nodes', fp') → I fp' nodes')
    {fp fp' : File} {nodes nodes' : List Node} (hI : I fp nodes)
    (h : loadNodes questions fp nodes = .done (some nodes', fp')) : I fp' nodes' := by
  induction hn : fp.size using Nat.strong_induction_on generalizing fp nodes with
  | _ n ih =>
    rw [loadNodes] at h
    split at h
    · cases h
    next fp₁ hread =>
      obtain ⟨hnodes, rfl⟩ := Prod.mk.inj (Outcome.done.inj h)
      exact Option.some.inj hnodes ▸ htoken hI hread
    next buff fp₁ hread =>
      split at h
      · obtain ⟨hnodes, rfl⟩ := Prod.mk.inj (Outcome.done.inj h)
        exact Option.some.inj hnodes ▸ htoken hI hread
      · split at h
        next nodes₁ fp₂ hload =>
          -- a token and a line were taken, so what is left is shorter
          obtain ⟨-, -, -, -, -, -, -, -, -, hless⟩ := loadLine_eq_done hload
          exact ih fp₂.size (hn ▸ hless.trans (size_getPatternToken hread))
            (hline (htoken hI hread) hload) h rfl
        · cases h
        · cases h
        · cases h

/-- Reading nodes does not make the file longer. -/
theorem size_loadNodes {questions : List Question} {fp fp' : File} {nodes nodes' : List Node}
    (h : loadNodes questions fp nodes = .done (some nodes', fp')) : fp'.size ≤ fp.size := by
  refine loadNodes_invariant (I := fun f _ => f.size ≤ fp.size) ?_ ?_ le_rfl h
  · intro f f' t _ hle hread
    cases t with
    | none => exact (size_getPatternToken_none hread).trans hle
    | some t => exact (size_getPatternToken hread).le.trans hle
  · intro _ f f' _ _ hle hload
    obtain ⟨-, -, -, -, -, -, -, -, -, hless⟩ := loadLine_eq_done hload
    exact hless.le.trans hle

/-- Reading a tree makes it shorter. -/
theorem size_treeLoad {questions : List Question} {fp fp' : File} {nodes : List Node}
    (h : treeLoad questions fp = .done (some nodes, fp')) : fp'.size < fp.size := by
  unfold treeLoad at h
  split at h
  · exact nomatch h
  · exact nomatch h
  next buff fp₁ htoken =>
    have hsize := size_getPatternToken htoken
    split at h
    · exact (size_loadNodes h).trans_lt hsize
    · split at h
      · exact nomatch h
      · obtain ⟨-, rfl⟩ := Prod.mk.inj (Outcome.done.inj h)
        exact hsize

/-- The part of `HTS_Model` that comes from a tree file. -/
structure TreeModel where
  question : List Question
  tree : List Tree
  deriving DecidableEq, Repr

/-- `if( strcmp( buff, "QS" ) == 0 )` -/
def loadQuestionEntry (questions : List Question) (buff : Str) (fp : File) :
    Outcome (Option (List Question) × File) :=
  if buff = "QS".toList then
    (questionLoad fp).bind fun (question, fp) =>
      .done (question.map fun question => questions ++ [question], fp)
  else .done (some questions, fp)

/-- `if( state != 0 )` -/
def loadTreeEntry (model : TreeModel) (buff : Str) (fp : File) :
    Outcome (Option TreeModel × File) :=
  let (state, buff) := getStateNum buff
  if state ≠ 0 then
    match treeParsePattern buff with
    | none => .outOfBounds
    | some head =>
      (treeLoad model.question fp).bind fun (nodes, fp) =>
        .done (nodes.map fun nodes =>
          { model with tree := model.tree ++ [⟨state, head, nodes⟩] }, fp)
  else .done (some model, fp)

/-- A turn of the loop of `HTS_Model_load_tree`, behind its first token. -/
def loadEntry (model : TreeModel) (buff : Str) (fp : File) : Outcome (Option TreeModel × File) :=
  (loadQuestionEntry model.question buff fp).bind fun (question, fp) =>
    match question with
    | none => .done (none, fp)
    | some question => loadTreeEntry { model with question } buff fp

/-- An entry adds a question at most. -/
theorem loadQuestionEntry_eq_done {questions questions' : List Question} {buff : Str}
    {fp fp' : File} (h : loadQuestionEntry questions buff fp = .done (some questions', fp')) :
    fp'.size ≤ fp.size ∧ (questions' = questions ∨ ∃ question,
      questions' = questions ++ [question] ∧
        questionLoad fp = .done (some question, fp')) := by
  unfold loadQuestionEntry at h
  split at h
  · obtain ⟨⟨question, fp₁⟩, hload, h⟩ := Outcome.bind_eq_done.mp h
    obtain ⟨hmap, rfl⟩ := Prod.mk.inj (Outcome.done.inj h)
    obtain ⟨question, rfl, rfl⟩ := Option.map_eq_some_iff.mp hmap
    exact ⟨(size_questionLoad hload).le, Or.inr ⟨question, rfl, hload⟩⟩
  · obtain ⟨hquestions, rfl⟩ := Prod.mk.inj (Outcome.done.inj h)
    exact ⟨le_rfl, Or.inl (Option.some.inj hquestions).symm⟩

theorem loadTreeEntry_eq_done {model model' : TreeModel} {buff : Str} {fp fp' : File}
    (h : loadTreeEntry model buff fp = .done (some model', fp')) :
    fp'.size ≤ fp.size ∧ (model' = model ∨ ∃ state head nodes,
      model' = { model with tree := model.tree ++ [⟨state, head, nodes⟩] } ∧
        treeParsePattern (getStateNum buff).2 = some head ∧
        treeLoad model.question fp = .done (some nodes, fp')) := by
  unfold loadTreeEntry at h
  dsimp only at h
  split at h
  · split at h
    · exact nomatch h
    next head hhead =>
      obtain ⟨⟨nodes, fp₁⟩, hload, h⟩ := Outcome.bind_eq_done.mp h
      obtain ⟨hmap, rfl⟩ := Prod.mk.inj (Outcome.done.inj h)
      obtain ⟨nodes, rfl, rfl⟩ := Option.map_eq_some_iff.mp hmap
      exact ⟨(size_treeLoad hload).le, Or.inr ⟨_, head, nodes, rfl, hhead, hload⟩⟩
  · obtain ⟨hmodel, rfl⟩ := Prod.mk.inj (Outcome.done.inj h)
    exact ⟨le_rfl, Or.inl (Option.some.inj hmodel).symm⟩

/-- The two tests on an entry, one after the other. -/
theorem loadEntry_eq_done {model model' : TreeModel} {buff : Str} {fp fp' : File}
    (h : loadEntry model buff fp = .done (some model', fp')) :
    ∃ question fp₁, loadQuestionEntry model.question buff fp = .done (some question, fp₁) ∧
      loadTreeEntry { model with question } buff fp₁ = .done (some model', fp') := by
  obtain ⟨⟨question, fp₁⟩, hquestion, h⟩ := Outcome.bind_eq_done.mp h
  dsimp only at h
  split at h
  · exact nomatch h
  next question => exact ⟨question, fp₁, hquestion, h⟩

/-- Reading an entry does not make the file longer. -/
theorem size_loadEntry {model model' : TreeModel} {buff : Str} {fp fp' : File}
    (h : loadEntry model buff fp = .done (some model', fp')) : fp'.size ≤ fp.size := by
  obtain ⟨question, fp₁, hquestion, htree⟩ := loadEntry_eq_done h
  exact (loadTreeEntry_eq_done htree).1.trans (loadQuestionEntry_eq_done hquestion).1

/-- The loop of `HTS_Model_load_tree`. -/
def loadEntries (fp : File) (model : TreeModel) : Outcome (Option TreeModel) :=
  if fp.feof then .done (some model)
  else
    match h : getPatternToken fp with
    -- `FALSE` does not come before the end
    | none | some (none, _) => .outOfBounds
    | some (some buff, fp₁) =>
      match h₁ : loadEntry model buff fp₁ with
      | .done (some model, fp₂) => loadEntries fp₂ model
      | .done (none, _) => .done none
      | .exited e => .exited e
      | .outOfBounds => .outOfBounds
termination_by fp.size
decreasing_by exact (size_loadEntry h₁).trans_lt (size_getPatternToken h)

/-- `HTS_Model_load_tree` -/
def modelLoadTree (fp : File) : Outcome (Option TreeModel) :=
  (loadEntries fp ⟨[], []⟩).bind fun model =>
    match model with
    | none => .done none
    | some model =>
      if model.tree = [] then
        .exited (.error "HTS_Model_load_tree: No trees are loaded.\n".toList)
      else .done (some model)

/-! ## The index of a label -/

/-- The loop over the trees: the first one that is wanted and whose patterns match is searched.
The index counts all trees, from 2 on. -/
def indexFrom (cannotFind : Exit) (wanted : Tree → Bool) (string : Str) :
    List Tree → Nat → Option (Outcome (Nat × Int))
  | [], _ => some (.exited cannotFind)
  | tree :: rest, tree_index =>
    if wanted tree then
      match if tree.head = [] then some true else matchAny string tree.head with
      | none => some .outOfBounds
      | some false => indexFrom cannotFind wanted string rest (tree_index + 1)
      | some true =>
        (treeSearchNode tree string).map fun pdf_index =>
          pdf_index.bind fun pdf_index => .done (tree_index, pdf_index)
    else indexFrom cannotFind wanted string rest (tree_index + 1)

/-- `HTS_error( 1, "…: Cannot find model %s.\n", string )` -/
def cannotFindModel (function : String) (string : Str) : Exit :=
  .error (function.toList ++ ": Cannot find model ".toList ++ string ++ ".\n".toList)

/-- `HTS_ModelSet_get_duration_index` -/
def getDurationIndex (model : TreeModel) (string : Str) : Option (Outcome (Nat × Int)) :=
  indexFrom (cannotFindModel "HTS_ModelSet_get_duration_index" string) (fun _ => true) string
    model.tree 2

/-- `HTS_ModelSet_get_parameter_index` -/
def getParameterIndex (model : TreeModel) (state_index : Int) (string : Str) :
    Option (Outcome (Nat × Int)) :=
  indexFrom (cannotFindModel "HTS_ModelSet_get_parameter_index" string)
    (fun tree => tree.state = state_index) string model.tree 2

/-- `HTS_ModelSet_get_gv_index`, of a set whose models all have trees or not. -/
def getGvIndex (haveGvTree : Bool) (model : TreeModel) (string : Str) :
    Option (Outcome (Nat × Int)) :=
  if haveGvTree then
    indexFrom (cannotFindModel "HTS_ModelSet_get_gv_index" string) (fun _ => true) string
      model.tree 2
  else some (.done (2, 1))

end Vox.Hts
