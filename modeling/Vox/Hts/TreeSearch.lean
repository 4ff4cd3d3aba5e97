import Mathlib.Data.List.GetD
import Vox.Hts.Trees

/-!
# hts_engine — searching a tree that was loaded

The search follows pointers and calls itself done when it meets a node without a question. A
file can name its nodes in any way: one twice, one never, one that is a leaf. None of this
makes the search go round or run into a NULL pointer, since a line always makes two new nodes
and points to them (`Linked`).

* `searchFrom_linked` — such a search ends, at the number of a node of the tree.
* `loadNodes_linked` / `sound_loadEntries` — the loaders keep it, for every file.
* `index_of_loaded` — what the index functions return on a model that was loaded.
-/

namespace Vox.Hts

open Lib Mage

/-! ## Questions -/

/-- The patterns came through the buffer. -/
def Short (patterns : List Str) : Prop := ∀ pattern ∈ patterns, pattern.length < hts_maxbuflen

/-- A list of patterns answers whether one of them matches. -/
theorem matchAny_eq (string : Str) {patterns : List Str} (hshort : Short patterns) :
    ∃ found, matchAny string patterns = some found ∧
      (found = true ↔ ∃ pattern ∈ patterns, string ∈ language pattern) := by
  induction patterns with
  | nil => exact ⟨false, rfl, by simp⟩
  | cons pattern rest ih =>
    have hlength := hshort pattern List.mem_cons_self
    obtain ⟨found, hfound, hiff⟩ := ih fun p hp => hshort p (List.mem_cons_of_mem _ hp)
    obtain ⟨first, hfirst, hfirstIff⟩ := patternMatch_language string pattern (by omega)
    unfold matchAny
    rw [hfirst]
    -- the first pattern that matches ends the loop
    cases first with
    | true => exact ⟨true, rfl, iff_of_true rfl ⟨pattern, List.mem_cons_self, hfirstIff.mp rfl⟩⟩
    | false =>
      refine ⟨found, hfound, ?_⟩
      have hnot : string ∉ language pattern := fun h => by simpa using hfirstIff.mpr h
      rw [hiff, List.exists_mem_cons_iff]
      exact (or_iff_right hnot).symm

/-- The patterns of a head fit the buffer of the matcher. -/
theorem short_loadPatterns {fp fp' : File} {head head' : List Str} (hshort : Short head)
    (h : loadPatterns fp head = .done (some head', fp')) : Short head' := by
  refine loadPatterns_invariant (I := fun _ head => Short head) ?_ hshort h
  intro _ _ _ pattern _ head hshort htoken _ p hp
  rcases List.mem_append.mp hp with hp | hp
  · exact hshort p hp
  · -- the new pattern is a token, which the buffer holds
    rw [List.mem_singleton.mp hp]
    exact length_getPatternToken htoken

theorem short_questionLoad {fp fp' : File} {question : Question}
    (h : questionLoad fp = .done (some question, fp')) : Short question.head := by
  obtain ⟨t, fp₁, -, h⟩ := withToken_eq_done h
  obtain ⟨u, fp₂, -, h⟩ := withToken_eq_done h
  split at h
  · obtain ⟨⟨head, fp₃⟩, hhead, h⟩ := Outcome.bind_eq_done.mp h
    obtain ⟨hmap, -⟩ := Prod.mk.inj (Outcome.done.inj h)
    obtain ⟨head, rfl, rfl⟩ := Option.map_eq_some_iff.mp hmap
    exact short_loadPatterns (fun p hp => absurd hp List.not_mem_nil) hhead
  · obtain ⟨hquestion, -⟩ := Prod.mk.inj (Outcome.done.inj h)
    rw [← Option.some.inj hquestion]
    exact fun p hp => absurd hp List.not_mem_nil

/-! ## Pointers go to later nodes -/

/-- A node with a question has two children, which were made after it. -/
def Linked (nodes : List Node) : Prop :=
  ∀ a < nodes.length, ∀ quest, (nodes.getD a default).quest = some quest →
    Short quest.head ∧ ∃ no yes, (nodes.getD a default).no = some no ∧
      (nodes.getD a default).yes = some yes ∧ a < no ∧ a < yes ∧ no < nodes.length ∧
      yes < nodes.length

/-- A child starts without a question. -/
theorem quest_childNode {t : Str} {node : Node} (h : childNode t = .done node) :
    node.quest = none := by
  unfold childNode at h
  split at h
  · rw [← Outcome.done.inj h]
  · split at h
    · exact nomatch h
    · rw [← Outcome.done.inj h]

/-- A node that is found is one of the list, with that number. -/
theorem lt_of_nodeFind {nodes : List Node} {num : Int} {a : Nat}
    (h : nodeFind nodes num = .done a) :
    a < nodes.length ∧ (nodes.getD a default).index = num := by
  unfold nodeFind at h
  split at h
  next b hb =>
    obtain rfl := Outcome.done.inj h
    have hmem := List.mem_of_find?_eq_some hb
    rw [List.mem_reverse, List.mem_range] at hmem
    exact ⟨hmem, by simpa using List.find?_some hb⟩
  next => exact nomatch h

/-- A line links a node to two new ones. -/
theorem linked_loadLine {questions : List Question} (hshort : ∀ q ∈ questions, Short q.head)
    {nodes nodes' : List Node} {buff : Str} {fp fp' : File} (hlinked : Linked nodes)
    (h : loadLine questions nodes buff fp = .done (some nodes', fp')) :
    Linked nodes' ∧ nodes.length ≤ nodes'.length := by
  obtain ⟨a, quest, no, yes, ha, hquest, ⟨tno, hno⟩, ⟨tyes, hyes⟩, rfl, -⟩ := loadLine_eq_done h
  obtain ⟨hlt, -⟩ := lt_of_nodeFind ha
  refine ⟨?_, by simp⟩
  intro b hb q hq
  rw [List.length_append, List.length_set, List.length_cons, List.length_singleton] at hb ⊢
  by_cases hold : b < nodes.length
  · rw [List.getD_append _ _ _ _ (by simpa using hold)] at hq ⊢
    by_cases hab : a = b
    · -- the node of the line
      subst hab
      rw [List.getD_eq_getElem _ _ (by simpa using hold), List.getElem_set_self] at hq ⊢
      refine ⟨Option.some.inj hq ▸ hshort quest hquest, nodes.length, nodes.length + 1, rfl, rfl,
        ?_⟩
      omega
    · have hsame : ∀ node, (nodes.set a node).getD b default = nodes.getD b default := by
        intro node
        rw [List.getD_eq_getElem?_getD, List.getD_eq_getElem?_getD, List.getElem?_set_ne hab]
      rw [hsame] at hq ⊢
      obtain ⟨hq', n, y, hn, hy, hbn, hby, hnlt, hylt⟩ := hlinked b hold q hq
      exact ⟨hq', n, y, hn, hy, hbn, hby, by omega, by omega⟩
  · -- a new node has no question
    exfalso
    rw [List.getD_append_right _ _ _ _ (by simpa using not_lt.mp hold), List.length_set] at hq
    obtain hb' | hb' : b - nodes.length = 0 ∨ b - nodes.length = 1 := by omega
    · rw [hb'] at hq
      rw [List.getD_cons_zero, quest_childNode hno] at hq
      exact nomatch hq
    · rw [hb'] at hq
      rw [List.getD_cons_succ, List.getD_cons_zero, quest_childNode hyes] at hq
      exact nomatch hq

/-- The children of a loaded node come after it. -/
theorem loadNodes_linked {questions : List Question} (hshort : ∀ q ∈ questions, Short q.head)
    {fp fp' : File} {nodes nodes' : List Node} (hlinked : Linked nodes)
    (h : loadNodes questions fp nodes = .done (some nodes', fp')) :
    Linked nodes' ∧ nodes.length ≤ nodes'.length := by
  refine loadNodes_invariant (I := fun _ ns => Linked ns ∧ nodes.length ≤ ns.length)
    (fun hns _ => hns) ?_ ⟨hlinked, le_rfl⟩ h
  rintro _ _ _ ns ns' ⟨hns, hle⟩ hload
  -- a line adds nodes at the end, and links to them
  obtain ⟨hns', hle'⟩ := linked_loadLine hshort hns hload
  exact ⟨hns', hle.trans hle'⟩

/-- One node without a question. -/
theorem linked_singleton {node : Node} (h : node.quest = none) : Linked [node] := by
  intro a ha quest hquest
  obtain rfl : a = 0 := by simpa using ha
  rw [List.getD_cons_zero, h] at hquest
  exact nomatch hquest

/-- So it is in every tree that is loaded. -/
theorem treeLoad_linked {questions : List Question} (hshort : ∀ q ∈ questions, Short q.head)
    {fp fp' : File} {nodes : List Node} (h : treeLoad questions fp = .done (some nodes, fp')) :
    Linked nodes ∧ 0 < nodes.length := by
  unfold treeLoad at h
  split at h
  · exact nomatch h
  · exact nomatch h
  · split at h
    · exact loadNodes_linked hshort (linked_singleton rfl) h
    · split at h
      · exact nomatch h
      · obtain ⟨hnodes, -⟩ := Prod.mk.inj (Outcome.done.inj h)
        rw [← Option.some.inj hnodes]
        exact ⟨linked_singleton rfl, Nat.zero_lt_one⟩

/-- **The search ends**, at a node of the tree. -/
theorem searchFrom_linked {nodes : List Node} (hlinked : Linked nodes) (string : Str)
    (fuel a : Nat) (ha : a < nodes.length) (hfuel : nodes.length ≤ a + fuel) :
    ∃ pdf, searchFrom nodes string fuel a = some (.done pdf) ∧
      pdf ∈ nodes.map Node.pdf := by
  have hmem : ∀ b < nodes.length, (nodes.getD b default).pdf ∈ nodes.map Node.pdf := by
    intro b hb
    rw [List.getD_eq_getElem _ _ hb]
    exact List.mem_map_of_mem (List.getElem_mem hb)
  induction fuel generalizing a with
  | zero => omega
  | succ fuel ih =>
    unfold searchFrom
    cases hquest : (nodes.getD a default).quest with
    | none => exact ⟨_, rfl, hmem a ha⟩
    | some quest =>
      obtain ⟨hshort, no, yes, hno, hyes, hlt, hlt', hin, hin'⟩ := hlinked a ha quest hquest
      obtain ⟨holds, hholds, -⟩ := matchAny_eq string hshort
      simp only [questionMatch, hholds, hno, hyes]
      -- either child comes later
      have hchild : ∃ child, (if holds = true then some yes else some no) = some child ∧
          a < child ∧ child < nodes.length := by
        cases holds with
        | true => exact ⟨yes, rfl, hlt', hin'⟩
        | false => exact ⟨no, rfl, hlt, hin⟩
      obtain ⟨child, hchoice, hafter, hinside⟩ := hchild
      rw [hchoice]
      dsimp only
      split
      · exact ⟨_, rfl, hmem child hinside⟩
      · exact ih child hinside (by omega)

/-! ## Models -/

/-- Reading the state keeps the buffer's length. -/
theorem length_getStateNum (buff : Str) : (getStateNum buff).2.length = buff.length := by
  unfold getStateNum
  split
  · exact List.length_set
  · rfl

/-- The patterns of a tree are pieces of its first token. -/
theorem short_treeParsePattern {buff : Str} {head : List Str} (hbuff : buff.length < hts_maxbuflen)
    (h : treeParsePattern buff = some head) : Short head := by
  unfold treeParsePattern at h
  split at h
  · rw [← Option.some.inj h]
    exact fun p hp => absurd hp List.not_mem_nil
  next left hleft =>
    dsimp only at h
    split at h
    · exact nomatch h
    next right hright =>
      rw [← Option.some.inj h]
      intro p hp
      -- a pattern is a piece of the buffer
      have hpiece := length_le_of_mem_terminated hp
      rw [List.length_set] at hpiece
      have hstring : (if ((c_str buff).drop (left + 1)).head? = some '('
          then ((c_str buff).drop (left + 1)).tail else (c_str buff).drop (left + 1)).length
          ≤ buff.length := by
        have hdrop : ((c_str buff).drop (left + 1)).length ≤ buff.length :=
          (List.drop_sublist _ _).length_le.trans (c_str_length_le buff)
        split
        · exact (List.tail_sublist _).length_le.trans hdrop
        · exact hdrop
      omega

/-- What the loader makes. -/
structure TreeModel.Sound (model : TreeModel) : Prop where
  question : ∀ question ∈ model.question, Short question.head
  tree : ∀ tree ∈ model.tree, Linked tree.nodes ∧ 0 < tree.nodes.length ∧ Short tree.head

/-- An entry keeps the model sound. -/
theorem sound_loadEntry {model model' : TreeModel} {buff : Str} {fp fp' : File}
    (hsound : model.Sound) (hbuff : buff.length < hts_maxbuflen)
    (h : loadEntry model buff fp = .done (some model', fp')) : model'.Sound := by
  obtain ⟨question, fp₁, hquestion, htree⟩ := loadEntry_eq_done h
  -- the entry may have added a question
  have hquestions : ∀ q ∈ question, Short q.head := by
    obtain ⟨-, rfl | ⟨q, rfl, hq⟩⟩ := loadQuestionEntry_eq_done hquestion
    · exact hsound.question
    · intro q' hq'
      rcases List.mem_append.mp hq' with hq' | hq'
      · exact hsound.question q' hq'
      · rw [List.mem_singleton.mp hq']
        exact short_questionLoad hq
  obtain ⟨-, rfl | ⟨state, head, nodes, rfl, hhead, hnodes⟩⟩ := loadTreeEntry_eq_done htree
  · exact ⟨hquestions, hsound.tree⟩
  · refine ⟨hquestions, fun tree htree => ?_⟩
    rcases List.mem_append.mp htree with htree | htree
    · exact hsound.tree tree htree
    · rw [List.mem_singleton.mp htree]
      obtain ⟨hlinked, hpos⟩ := treeLoad_linked hquestions hnodes
      exact ⟨hlinked, hpos, short_treeParsePattern (length_getStateNum buff ▸ hbuff) hhead⟩

theorem sound_loadEntries {fp : File} {model model' : TreeModel} (hsound : model.Sound)
    (h : loadEntries fp model = .done (some model')) : model'.Sound := by
  induction hn : fp.size using Nat.strong_induction_on generalizing fp model with
  | _ n ih =>
    rw [loadEntries] at h
    split at h
    · exact Option.some.inj (Outcome.done.inj h) ▸ hsound
    · split at h
      · cases h
      · cases h
      next buff fp₁ htoken =>
        split at h
        next model₁ fp₂ hentry =>
          -- an entry takes a token at least, so the file gets shorter
          have hsize := (size_loadEntry hentry).trans_lt (size_getPatternToken htoken)
          exact ih fp₂.size (hn ▸ hsize)
            (sound_loadEntry hsound (length_getPatternToken htoken) hentry) h rfl
        · cases h
        · cases h
        · cases h

/-- A model that was loaded is sound. -/
theorem sound_modelLoadTree {fp : File} {model : TreeModel}
    (h : modelLoadTree fp = .done (some model)) : model.Sound := by
  obtain ⟨loaded, hloaded, h⟩ := Outcome.bind_eq_done.mp h
  split at h
  · exact nomatch h
  next model₁ =>
    split at h
    · exact nomatch h
    · obtain rfl := Option.some.inj (Outcome.done.inj h)
      exact sound_loadEntries ⟨fun q hq => absurd hq List.not_mem_nil,
        fun t ht => absurd ht List.not_mem_nil⟩ hloaded

/-! ## The index functions -/

/-- A tree with such patterns is for a label: it has none, or one of them matches. -/
def AppliesTo (head : List Str) (string : Str) : Prop :=
  head = [] ∨ ∃ pattern ∈ head, string ∈ language pattern

/-- A tree that an index function looks for. -/
def Tree.For (wanted : Tree → Bool) (string : Str) (tree : Tree) : Prop :=
  wanted tree = true ∧ AppliesTo tree.head string

/-- Entry `i` is the first one with the property. -/
structure FirstWith {α : Type*} (entries : List α) (p : α → Prop) (i : Nat) (entry : α) : Prop where
  at_ : entries[i]? = some entry
  holds : p entry
  first : ∀ j < i, ∀ e, entries[j]? = some e → ¬ p e

/-- One entry before, without the property. -/
theorem FirstWith.cons {α : Type*} {entries : List α} {p : α → Prop} {i : Nat} {entry e : α}
    (h : FirstWith entries p i entry) (he : ¬ p e) : FirstWith (e :: entries) p (i + 1) entry where
  at_ := h.at_
  holds := h.holds
  first := by
    intro j hj e' he'
    cases j with
    | zero =>
      obtain rfl : e = e' := by simpa using he'
      exact he
    | succ j => exact h.first j (by omega) e' he'

/-- The head is matched without a memory error, and as `AppliesTo` says. -/
theorem matchHead_eq {head : List Str} (hshort : Short head) (string : Str) :
    ∃ found, (if head = [] then some true else matchAny string head) = some found ∧
      (found = true ↔ AppliesTo head string) := by
  unfold AppliesTo
  split
  next hnil => exact ⟨true, rfl, iff_of_true rfl (Or.inl hnil)⟩
  next hne =>
    obtain ⟨found, hfound, hiff⟩ := matchAny_eq string hshort
    exact ⟨found, hfound, hiff.trans (or_iff_right hne).symm⟩

/-- The first tree for the label is searched, or there is none. -/
theorem indexFrom_eq (cannotFind : Exit) (wanted : Tree → Bool) (string : Str) {trees : List Tree}
    (hshort : ∀ tree ∈ trees, Short tree.head) (tree_index : Nat) :
    (∃ i tree, FirstWith trees (Tree.For wanted string) i tree ∧
        indexFrom cannotFind wanted string trees tree_index
          = (treeSearchNode tree string).map fun pdf_index =>
            pdf_index.bind fun pdf_index => .done (tree_index + i, pdf_index)) ∨
      ((∀ tree ∈ trees, ¬ tree.For wanted string) ∧
        indexFrom cannotFind wanted string trees tree_index = some (.exited cannotFind)) := by
  induction trees generalizing tree_index with
  | nil => exact Or.inr ⟨fun t ht => absurd ht List.not_mem_nil, rfl⟩
  | cons tree rest ih =>
    obtain ⟨found, hfound, hiff⟩ := matchHead_eq (hshort tree List.mem_cons_self) string
    have hrest := ih (fun t ht => hshort t (List.mem_cons_of_mem _ ht)) (tree_index + 1)
    by_cases huse : tree.For wanted string
    · refine Or.inl ⟨0, tree, ⟨rfl, huse, fun j hj => absurd hj (Nat.not_lt_zero j)⟩, ?_⟩
      rw [indexFrom, if_pos huse.1, hfound, hiff.mpr huse.2]
      rfl
    · -- the loop goes on to the next tree
      have hskip : indexFrom cannotFind wanted string (tree :: rest) tree_index
          = indexFrom cannotFind wanted string rest (tree_index + 1) := by
        rw [indexFrom]
        split
        next hwanted =>
          have hnot : found = false :=
            Bool.eq_false_of_not_eq_true fun h => huse ⟨hwanted, hiff.mp h⟩
          rw [hfound, hnot]
        next => rfl
      rw [hskip]
      rcases hrest with ⟨i, t, hfirst, heq⟩ | ⟨hnone, heq⟩
      · refine Or.inl ⟨i + 1, t, hfirst.cons huse, ?_⟩
        rw [heq, Nat.add_right_comm, Nat.add_assoc]
      · refine Or.inr ⟨fun t ht => ?_, heq⟩
        rcases List.mem_cons.mp ht with rfl | ht
        · exact huse
        · exact hnone t ht

/-- **A model that was loaded can be searched**, whatever the file contains. For every label the
loop over the trees comes to the first tree that is wanted and for the label, and the search of
this tree ends at the number of one of its nodes; or there is no such tree, and the process
ends with the message that says so. -/
theorem index_of_loaded {fp : File} {model : TreeModel}
    (h : modelLoadTree fp = .done (some model)) (cannotFind : Exit) (wanted : Tree → Bool)
    (string : Str) :
    (∃ i tree pdf, FirstWith model.tree (Tree.For wanted string) i tree ∧
        pdf ∈ tree.nodes.map Node.pdf ∧
        indexFrom cannotFind wanted string model.tree 2 = some (.done (2 + i, pdf))) ∨
      ((∀ tree ∈ model.tree, ¬ tree.For wanted string) ∧
        indexFrom cannotFind wanted string model.tree 2 = some (.exited cannotFind)) := by
  have hsound := sound_modelLoadTree h
  rcases indexFrom_eq cannotFind wanted string (fun t ht => (hsound.tree t ht).2.2) 2 with
    ⟨i, tree, hfirst, heq⟩ | hnone
  · obtain ⟨hlinked, hpos, -⟩ := hsound.tree tree (List.mem_of_getElem? hfirst.at_)
    obtain ⟨pdf, hpdf, hmem⟩ := searchFrom_linked hlinked string tree.nodes.length 0 hpos (by omega)
    refine Or.inl ⟨i, tree, pdf, hfirst, hmem, ?_⟩
    rw [heq, treeSearchNode, hpdf]
    rfl
  · exact Or.inr hnone

/-- A question, and a tree for state 2 that asks it. -/
def vowelText : Str :=
  ("QS C-Vowel \x7b \"*-aa+*\" , \"*-iy+*\" \x7d\n".toList
    ++ "\x7b*\x7d[2]\n\x7b\n 0 C-Vowel \"m_1\" \"m_2\" \n\x7d\n".toList)

/-- The model of this text. -/
def vowelModel : TreeModel :=
  let question := ⟨"C-Vowel".toList, ["*-aa+*".toList, "*-iy+*".toList]⟩
  { question := [question]
    tree := [⟨2, [['*']], [{ quest := some question, no := some 1, yes := some 2 }, { pdf := 1 },
      { pdf := 2 }]⟩] }

theorem index_of_loaded_vowel :
    (∃ i tree pdf, FirstWith vowelModel.tree
          (Tree.For (fun tree => tree.state = 2) "x^k-iy+n".toList) i tree ∧
        pdf ∈ tree.nodes.map Node.pdf ∧
        getParameterIndex vowelModel 2 "x^k-iy+n".toList = some (.done (2 + i, pdf))) ∨
      ((∀ tree ∈ vowelModel.tree,
          ¬ tree.For (fun tree => tree.state = 2) "x^k-iy+n".toList) ∧
        getParameterIndex vowelModel 2 "x^k-iy+n".toList = some (.exited
          (cannotFindModel "HTS_ModelSet_get_parameter_index" "x^k-iy+n".toList))) :=
  index_of_loaded
    (show modelLoadTree ⟨vowelText, false⟩ = .done (some vowelModel) by decide +kernel) _ _ _

end Vox.Hts
