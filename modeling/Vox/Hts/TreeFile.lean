import Vox.Hts.TreeSearch
import Vox.Lib.Split
import Vox.Mage.LabelHistory

/-!
# hts_engine — tree files

What a tree file says, and that it is what the loader makes of it.

A decision tree is written as one line for each of its questions. A line has the number of its
node, the question, and what comes next when the answer is no and when it is yes: the number of
another node, or the name of a leaf, whose last digits are the number of a pdf. The lines may
come in any order in which a node comes after the one that leads to it.

* `Built` — the nodes after some lines: each line has its node, and no number is there twice.
* `loadNodes_spells` — the lines are loaded one after the other.
* `Represents` / `represents_of_built` — node by node the tree that was written.
* `Represents.search` — so that the search decides as the tree does.
-/

namespace Vox.Hts

open Lib Mage

/-! ## Numbers -/

/-- `%d` -/
def number (i : Int) : Str :=
  if i < 0 then '-' :: Nat.toDigits 10 i.natAbs else Nat.toDigits 10 i.natAbs

/-- The decimal digits are digits to `isdigit`. -/
theorem isDigit_of_mem_toDigits {n : Nat} {c : Char} (h : c ∈ Nat.toDigits 10 n) :
    c.isDigit = true := Nat.isDigit_of_mem_toDigits (by decide) (by decide) h

/-- A printed number is a number to the loader. -/
theorem isNum_number (i : Int) : isNum (number i) = true := by
  have hdigits : isNum (Nat.toDigits 10 i.natAbs) = true := by
    rw [isNum, List.all_eq_true]
    intro c hc
    rw [isDigit_of_mem_toDigits hc, Bool.true_or]
  unfold number
  split
  · rw [isNum, List.all_cons]
    exact hdigits
  · exact hdigits

/-- `atoi` reads a printed number back, as long as it is an int. -/
theorem atoi_number {i : Int} (hlo : -intMax - 1 ≤ i) (hhi : i ≤ intMax) :
    atoi (number i) = i := by
  -- the digits are taken whole
  have hall : ∀ c ∈ Nat.toDigits 10 i.natAbs, c.isDigit = true :=
    fun c hc => isDigit_of_mem_toDigits hc
  have htake : (Nat.toDigits 10 i.natAbs).takeWhile Char.isDigit = Nat.toDigits 10 i.natAbs :=
    List.takeWhile_eq_self_iff.mpr hall
  unfold number atoi
  split
  -- the sign is taken off first
  next hneg =>
    have hsign : takeSign (('-' :: Nat.toDigits 10 i.natAbs).dropWhile isspace)
        = (-1, Nat.toDigits 10 i.natAbs) := by
      rw [List.dropWhile_cons, if_neg (by decide)]
      rfl
    simp only [hsign, htake, Label.digitsValue_toDigits]
    omega
  next hpos =>
    obtain ⟨c, cs, hdigits⟩ := List.exists_cons_of_ne_nil (Nat.toDigits_ne_nil (n := i.natAbs))
    have hsign : takeSign ((Nat.toDigits 10 i.natAbs).dropWhile isspace)
        = (1, Nat.toDigits 10 i.natAbs) := by
      rw [hdigits]
      exact Label.takeSign_digits (hall c (hdigits ▸ List.mem_cons_self))
    simp only [hsign, htake, Label.digitsValue_toDigits]
    omega

/-! ## What a tree file says -/

/-- What a line says comes next. -/
inductive Child
  | node (index : Int)
  | leaf (name : Str)
  deriving DecidableEq, Repr

def Child.token : Child → Str
  | node index => number index
  | leaf name => name

/-- The number that the name of a leaf ends with. -/
def leafNumber (name : Str) : Int := atoi (name.rtakeWhile Char.isDigit)

/-- A line of a tree. -/
structure Line where
  index : Int
  question : Question
  no : Child
  yes : Child
  deriving DecidableEq, Repr

def Line.tokens (line : Line) : List Str :=
  [number line.index, line.question.string, line.no.token, line.yes.token]

/-- The answer to a question. -/
def Question.Holds (question : Question) (string : Str) : Prop :=
  ∃ pattern ∈ question.head, string ∈ language pattern

instance (question : Question) : DecidablePred question.Holds := fun string =>
  inferInstanceAs (Decidable (∃ pattern ∈ question.head, string ∈ language pattern))

/-- A decision tree whose nodes have numbers. -/
inductive NumberedTree
  | leaf (name : Str)
  | node (index : Int) (question : Question) (no yes : NumberedTree)
  deriving DecidableEq, Repr

namespace NumberedTree

def child : NumberedTree → Child
  | leaf name => .leaf name
  | node index _ _ _ => .node index

/-- A line for each question. -/
def lines : NumberedTree → List Line
  | leaf _ => []
  | node index question no yes =>
    ⟨index, question, no.child, yes.child⟩ :: (no.lines ++ yes.lines)

def indices : NumberedTree → List Int
  | leaf _ => []
  | node index _ no yes => index :: (no.indices ++ yes.indices)

/-- **What the tree decides** for a label. -/
def eval (string : Str) : NumberedTree → Int
  | leaf name => leafNumber name
  | node _ question no yes =>
    if question.Holds string then yes.eval string else no.eval string

end NumberedTree

/-! ## Loading a line -/

/-- The node that a line leads to, as it is allocated. -/
def Named (node : Node) : Child → Prop
  | .node index => node.index = index ∧ node.pdf = 0
  | .leaf name => node.index = 0 ∧ node.pdf = leafNumber name

/-- A child that can be told from its token. -/
def Child.Readable : Child → Prop
  | .node index => -intMax - 1 ≤ index ∧ index ≤ intMax
  | .leaf name => isNum name = false

/-- A child's token makes a node that names the child. -/
theorem childNode_token {child : Child} (h : child.Readable) :
    ∃ node, childNode child.token = .done node ∧ Named node child ∧ node.quest = none := by
  cases child with
  | node index =>
    refine ⟨{ index := index }, ?_, ⟨rfl, rfl⟩, rfl⟩
    -- a number names an inner node
    rw [childNode, Child.token, if_pos (isNum_number index), atoi_number h.1 h.2]
  | leaf name =>
    -- a name is a leaf, whose number stands at its end
    have hnum : isNum name = false := h
    have hall : name.all Char.isDigit = false := by
      rw [← Bool.not_eq_true, List.all_eq_true]
      intro hdigits
      rw [← Bool.not_eq_true, isNum, List.all_eq_true] at hnum
      exact hnum fun c hc => by rw [hdigits c hc, Bool.true_or]
    refine ⟨{ pdf := leafNumber name }, ?_, ⟨rfl, rfl⟩, rfl⟩
    rw [childNode, Child.token, if_neg (by simp [hnum]), name2num, if_neg (by simp [hall])]
    rfl

/-- A line is found in the node `a`. -/
structure Placed (nodes : List Node) (line : Line) (a : Nat) : Prop where
  lt : a < nodes.length
  index_eq : (nodes.getD a default).index = line.index
  pdf_eq : (nodes.getD a default).pdf = 0
  quest_eq : (nodes.getD a default).quest = some line.question
  no : ∃ n, (nodes.getD a default).no = some n ∧ 0 < n ∧ n < nodes.length ∧
    Named (nodes.getD n default) line.no
  yes : ∃ y, (nodes.getD a default).yes = some y ∧ 0 < y ∧ y < nodes.length ∧
    Named (nodes.getD y default) line.yes
  root : line.index = 0 → a = 0

/-- The nodes after the lines `pre`. -/
structure Built (pre : List Line) (nodes : List Node) : Prop where
  length_eq : nodes.length = 2 * pre.length + 1
  root : Named (nodes.getD 0 default) (.node 0)
  placed : ∀ line ∈ pre, ∃ a, Placed nodes line a
  /-- A node that is not a leaf has its number for itself. -/
  unique : ∀ a < nodes.length, ∀ b < nodes.length, (nodes.getD a default).index ≠ 0 →
    (nodes.getD b default).index = (nodes.getD a default).index → b = a
  noQuest : ∀ a < nodes.length, 0 < a → (nodes.getD a default).index = 0 →
    (nodes.getD a default).quest = none
  named : ∀ a < nodes.length, (nodes.getD a default).index ≠ 0 → ∃ line ∈ pre,
    line.no = .node (nodes.getD a default).index ∨ line.yes = .node (nodes.getD a default).index

/-- What a line needs of the lines before it. -/
structure Follows (pre : List Line) (line : Line) : Prop where
  reached : (line.index = 0 ∧ pre = []) ∨ (line.index ≠ 0 ∧ ∃ l ∈ pre,
    l.no = .node line.index ∨ l.yes = .node line.index)
  fresh : ∀ l ∈ pre, l.index ≠ line.index
  inRange : -intMax - 1 ≤ line.index ∧ line.index ≤ intMax
  no : line.no.Readable
  yes : line.yes.Readable
  new : ∀ index, line.no = .node index ∨ line.yes = .node index →
    index ≠ 0 ∧ ∀ l ∈ pre, l.no ≠ .node index ∧ l.yes ≠ .node index
  ne : ∀ index, line.no = .node index → line.yes ≠ .node index

/-- At the start there is the root alone. -/
theorem built_nil : Built [] [{}] where
  length_eq := rfl
  root := ⟨rfl, rfl⟩
  placed := fun line h => absurd h List.not_mem_nil
  unique := by
    intro a ha b hb _ _
    simp only [List.length_singleton] at ha hb
    omega
  noQuest := by
    -- there is no node but the root
    intro a ha hpos
    simp only [List.length_singleton] at ha
    omega
  named := by
    intro a ha hindex
    obtain rfl : a = 0 := by simpa using ha
    exact absurd rfl hindex

/-- The search for a number that one node has. -/
theorem nodeFind_eq {nodes : List Node} {num : Int} {a : Nat} (ha : a < nodes.length)
    (hindex : (nodes.getD a default).index = num)
    (hunique : ∀ b < nodes.length, (nodes.getD b default).index = num → b = a) :
    nodeFind nodes num = .done a := by
  have hfind : ((List.range nodes.length).reverse.find? fun a =>
      decide ((nodes.getD a default).index = num)) = some a := by
    cases hsome : (List.range nodes.length).reverse.find? fun a =>
        decide ((nodes.getD a default).index = num) with
    | none =>
      have hnone := List.find?_eq_none.mp hsome a (by simpa using ha)
      exact absurd (decide_eq_true hindex) hnone
    | some b =>
      have hb := List.mem_of_find?_eq_some hsome
      rw [List.mem_reverse, List.mem_range] at hb
      rw [hunique b hb (by simpa using List.find?_some hsome)]
  rw [nodeFind, hfind]

/-- A line is for one node. -/
theorem exists_node {pre : List Line} {nodes : List Node} (h : Built pre nodes) {line : Line}
    (hfollows : Follows pre line) :
    ∃ a < nodes.length, (nodes.getD a default).index = line.index ∧
      (nodes.getD a default).pdf = 0 ∧ (line.index = 0 → a = 0) ∧
      ∀ b < nodes.length, (nodes.getD b default).index = line.index → b = a := by
  -- the root is there from the start, and the others were named by a line before
  rcases hfollows.reached with ⟨hzero, rfl⟩ | ⟨hne, l, hl, hchild⟩
  · have hlength : nodes.length = 1 := h.length_eq
    refine ⟨0, by omega, h.root.1.trans hzero.symm, h.root.2, fun _ => rfl, ?_⟩
    intro b hb _
    omega
  · obtain ⟨a, ha⟩ := h.placed l hl
    have hnamed : ∃ n < nodes.length, Named (nodes.getD n default) (.node line.index) := by
      rcases hchild with hno | hyes
      · obtain ⟨n, -, -, hn, hnamed⟩ := ha.no
        exact ⟨n, hn, hno ▸ hnamed⟩
      · obtain ⟨y, -, -, hy, hnamed⟩ := ha.yes
        exact ⟨y, hy, hyes ▸ hnamed⟩
    obtain ⟨n, hn, hindex, hpdf⟩ := hnamed
    refine ⟨n, hn, hindex, hpdf, fun hzero => absurd hzero hne, ?_⟩
    intro b hb hb'
    -- `HTS_Node_find` looks through all nodes: there is no other with this number
    exact h.unique n hn b hb (by rwa [hindex]) (hb'.trans hindex.symm)

/-- The nodes after a line for node `a`. -/
def addLine (nodes : List Node) (a : Nat) (question : Question) (no yes : Node) : List Node :=
  nodes.set a { nodes.getD a default with
    quest := some question, no := some nodes.length, yes := some (nodes.length + 1) } ++ [no, yes]

section AddLine

variable {nodes : List Node} {a : Nat} {question : Question} {no yes : Node}

theorem length_addLine : (addLine nodes a question no yes).length = nodes.length + 2 := by
  simp [addLine]

/-- The line's node gets its question and its children. -/
theorem getD_addLine_self (ha : a < nodes.length) :
    (addLine nodes a question no yes).getD a default = { nodes.getD a default with
      quest := some question, no := some nodes.length, yes := some (nodes.length + 1) } := by
  rw [addLine, List.getD_append _ _ _ _ (by simpa using ha),
    List.getD_eq_getElem _ _ (by simpa using ha), List.getElem_set_self]

theorem getD_addLine_ne {c : Nat} (hc : c < nodes.length) (hne : c ≠ a) :
    (addLine nodes a question no yes).getD c default = nodes.getD c default := by
  rw [addLine, List.getD_append _ _ _ _ (by simpa using hc), List.getD_eq_getElem?_getD,
    List.getElem?_set_ne (Ne.symm hne), ← List.getD_eq_getElem?_getD]

/-- The first new node is the no child. -/
theorem getD_addLine_no :
    (addLine nodes a question no yes).getD nodes.length default = no := by
  rw [addLine, List.getD_append_right _ _ _ _ (by simp)]
  simp

/-- The second new node is the yes child. -/
theorem getD_addLine_yes :
    (addLine nodes a question no yes).getD (nodes.length + 1) default = yes := by
  rw [addLine, List.getD_append_right _ _ _ _ (by simp)]
  simp

/-- A node keeps its number and its pdf. -/
theorem named_addLine (ha : a < nodes.length) {c : Nat} (hc : c < nodes.length) (child : Child) :
    Named ((addLine nodes a question no yes).getD c default) child
      ↔ Named (nodes.getD c default) child := by
  by_cases hca : c = a
  · subst hca
    rw [getD_addLine_self ha]
    cases child <;> exact Iff.rfl
  · rw [getD_addLine_ne hc hca]

/-- The numbers of the old nodes stay. -/
theorem index_addLine (ha : a < nodes.length) {c : Nat} (hc : c < nodes.length) :
    ((addLine nodes a question no yes).getD c default).index
      = (nodes.getD c default).index := by
  by_cases hca : c = a
  · subst hca
    rw [getD_addLine_self ha]
  · rw [getD_addLine_ne hc hca]

/-- A node of the longer memory is an old one or one of the two. -/
theorem cases_addLine {c : Nat} (hc : c < (addLine nodes a question no yes).length) :
    c < nodes.length ∨ c = nodes.length ∨ c = nodes.length + 1 := by
  rw [length_addLine] at hc
  omega

end AddLine

/-- A node with a number was named by it. -/
theorem Named.eq_node {node : Node} {child : Child} (h : Named node child)
    (hne : node.index ≠ 0) : child = .node node.index := by
  cases child with
  | node index => rw [h.1]
  | leaf name => exact absurd h.1 hne

section Line

variable {pre : List Line} {nodes : List Node} {line : Line} {a : Nat} {no yes : Node}

/-- The lines before keep their places. -/
theorem placed_addLine {l : Line} {b : Nat} (hplaced : Placed nodes l b)
    (ha : a < nodes.length) (hne : b ≠ a) :
    Placed (addLine nodes a line.question no yes) l b := by
  -- only the node of the new line changes
  have hsame : (addLine nodes a line.question no yes).getD b default = nodes.getD b default :=
    getD_addLine_ne hplaced.lt hne
  have hle : nodes.length ≤ (addLine nodes a line.question no yes).length := by
    rw [length_addLine]
    omega
  obtain ⟨n, hn, hnpos, hnlt, hnamed⟩ := hplaced.no
  obtain ⟨y, hy, hypos, hylt, hnamed'⟩ := hplaced.yes
  exact
    { lt := hplaced.lt.trans_le hle
      index_eq := by rw [hsame, hplaced.index_eq]
      pdf_eq := by rw [hsame, hplaced.pdf_eq]
      quest_eq := by rw [hsame, hplaced.quest_eq]
      no := ⟨n, by rw [hsame, hn], hnpos, hnlt.trans_le hle, (named_addLine ha hnlt _).mpr hnamed⟩
      yes := ⟨y, by rw [hsame, hy], hypos, hylt.trans_le hle,
        (named_addLine ha hylt _).mpr hnamed'⟩
      root := hplaced.root }

/-- The node of the line gets its question and two new children. -/
theorem placed_line (h : Built pre nodes) (ha : a < nodes.length)
    (hindex : (nodes.getD a default).index = line.index)
    (hpdf : (nodes.getD a default).pdf = 0) (hroot : line.index = 0 → a = 0)
    (hno : Named no line.no) (hyes : Named yes line.yes) :
    Placed (addLine nodes a line.question no yes) line a := by
  have hself := @getD_addLine_self nodes a line.question no yes ha
  have hlength := h.length_eq
  exact
    { lt := by rw [length_addLine]; omega
      index_eq := by rw [hself, ← hindex]
      pdf_eq := by rw [hself, ← hpdf]
      quest_eq := by rw [hself]
      no := ⟨nodes.length, by rw [hself], by omega, by rw [length_addLine]; omega,
        getD_addLine_no ▸ hno⟩
      yes := ⟨nodes.length + 1, by rw [hself], by omega, by rw [length_addLine]; omega,
        getD_addLine_yes ▸ hyes⟩
      root := hroot }

/-- The numbers of the new nodes are new. -/
theorem unique_addLine (h : Built pre nodes) (hfollows : Follows pre line) (ha : a < nodes.length)
    (hno : Named no line.no) (hyes : Named yes line.yes) :
    ∀ c < (addLine nodes a line.question no yes).length,
      ∀ d < (addLine nodes a line.question no yes).length,
        ((addLine nodes a line.question no yes).getD c default).index ≠ 0 →
        ((addLine nodes a line.question no yes).getD d default).index
          = ((addLine nodes a line.question no yes).getD c default).index → d = c := by
  -- an old node does not have the number of a new one
  have hold : ∀ c < nodes.length, ∀ index, index ≠ 0 →
      line.no = .node index ∨ line.yes = .node index → (nodes.getD c default).index ≠ index := by
    intro c hc index hne hchild heq
    obtain ⟨l, hl, hnamed⟩ := h.named c hc (heq ▸ hne)
    rw [heq] at hnamed
    obtain ⟨hl₁, hl₂⟩ := (hfollows.new index hchild).2 l hl
    exact hnamed.elim hl₁ hl₂
  intro c hc d hd hne heq
  rcases cases_addLine hc with hc | rfl | rfl
  · rw [index_addLine ha hc] at hne heq
    rcases cases_addLine hd with hd | rfl | rfl
    · rw [index_addLine ha hd] at heq
      exact h.unique c hc d hd hne heq
    · rw [getD_addLine_no] at heq
      exact absurd heq.symm (hold c hc _ (heq ▸ hne) (Or.inl (hno.eq_node (heq ▸ hne))))
    · rw [getD_addLine_yes] at heq
      exact absurd heq.symm (hold c hc _ (heq ▸ hne) (Or.inr (hyes.eq_node (heq ▸ hne))))
  · rw [getD_addLine_no] at hne heq
    rcases cases_addLine hd with hd | rfl | rfl
    · rw [index_addLine ha hd] at heq
      exact absurd heq (hold d hd _ hne (Or.inl (hno.eq_node hne)))
    · rfl
    · rw [getD_addLine_yes] at heq
      have hboth := hyes.eq_node (heq ▸ hne)
      rw [heq] at hboth
      exact absurd hboth (hfollows.ne _ (hno.eq_node hne))
  · rw [getD_addLine_yes] at hne heq
    rcases cases_addLine hd with hd | rfl | rfl
    · rw [index_addLine ha hd] at heq
      exact absurd heq (hold d hd _ hne (Or.inr (hyes.eq_node hne)))
    · rw [getD_addLine_no] at heq
      have hboth := hno.eq_node (heq ▸ hne)
      rw [heq] at hboth
      exact absurd (hyes.eq_node hne) (hfollows.ne _ hboth)
    · rfl

/-- **What a line makes of the nodes.** -/
theorem built_addLine (h : Built pre nodes) (hfollows : Follows pre line) (ha : a < nodes.length)
    (hindex : (nodes.getD a default).index = line.index)
    (hpdf : (nodes.getD a default).pdf = 0) (hroot : line.index = 0 → a = 0)
    (hno : Named no line.no) (hyes : Named yes line.yes) (hnoQuest : no.quest = none)
    (hyesQuest : yes.quest = none) :
    Built (pre ++ [line]) (addLine nodes a line.question no yes) where
  length_eq := by
    rw [length_addLine, h.length_eq, List.length_append, List.length_singleton]
    omega
  root := (named_addLine ha (by omega) _).mpr h.root
  placed := by
    intro l hl
    rcases List.mem_append.mp hl with hl | hl
    · obtain ⟨b, hb⟩ := h.placed l hl
      refine ⟨b, placed_addLine hb ha ?_⟩
      -- its node has another number
      rintro rfl
      exact hfollows.fresh l hl (hb.index_eq.symm.trans hindex)
    · rw [List.mem_singleton.mp hl]
      exact ⟨a, placed_line h ha hindex hpdf hroot hno hyes⟩
  unique := unique_addLine h hfollows ha hno hyes
  noQuest := by
    intro c hc hpos hzero
    rcases cases_addLine hc with hc | rfl | rfl
    · rw [index_addLine ha hc] at hzero
      have hca : c ≠ a := by
        rintro rfl
        have := hroot (hindex.symm.trans hzero)
        omega
      rw [getD_addLine_ne hc hca]
      exact h.noQuest c hc hpos hzero
    · rw [getD_addLine_no, hnoQuest]
    · rw [getD_addLine_yes, hyesQuest]
  named := by
    intro c hc hne
    rcases cases_addLine hc with hc | rfl | rfl
    · rw [index_addLine ha hc] at hne ⊢
      obtain ⟨l, hl, hnamed⟩ := h.named c hc hne
      exact ⟨l, List.mem_append_left _ hl, hnamed⟩
    · rw [getD_addLine_no] at hne ⊢
      exact ⟨line, by simp, Or.inl (hno.eq_node hne)⟩
    · rw [getD_addLine_yes] at hne ⊢
      exact ⟨line, by simp, Or.inr (hyes.eq_node hne)⟩

end Line

/-! ## Loading the lines -/

/-- A token is read, and the next ones are left. -/
theorem withToken_spells {α : Type*} {t : Str} {ts : List Str} {text : Str}
    (h : Spells (t :: ts) text) (hlength : t.length < hts_maxbuflen)
    (k : Str → File → Outcome (Option α × File)) :
    ∃ rest, withToken ⟨text, false⟩ k = k t ⟨rest, false⟩ ∧ Spells ts rest := by
  obtain ⟨rest, htoken, hrest⟩ := getPatternToken_spells h hlength
  exact ⟨rest, by rw [withToken, htoken], hrest⟩

/-- Reading a child's token off a text that spells it. -/
theorem withChild_spells {α : Type*} {child : Child} {ts : List Str} {text : Str}
    (hchild : child.Readable) (h : Spells (child.token :: ts) text)
    (hlength : child.token.length < hts_maxbuflen)
    (k : Node → File → Outcome (Option α × File)) :
    ∃ rest node, withChild ⟨text, false⟩ k = k node ⟨rest, false⟩ ∧ Spells ts rest ∧
      Named node child ∧ node.quest = none := by
  obtain ⟨rest, htoken, hrest⟩ := getPatternToken_spells h hlength
  obtain ⟨node, hnode, hnamed, hquest⟩ := childNode_token hchild
  refine ⟨rest, node, ?_, hrest, hnamed, hquest⟩
  rw [withChild, htoken]
  simp only [hnode, Outcome.bind_done]

/-- The question of a line is found under its name. -/
def Known (questions : List Question) (question : Question) : Prop :=
  findQuestion questions question.string = .done question

/-- Reading a whole line: its node is found, the question is known, two children are made. -/
theorem loadLine_spells {questions : List Question} {pre : List Line} {nodes : List Node}
    (h : Built pre nodes) {line : Line} (hfollows : Follows pre line)
    (hknown : Known questions line.question) {ts : List Str} {text : Str}
    (hlength : ∀ t ∈ line.tokens, t.length < hts_maxbuflen)
    (hspells : Spells (line.question.string :: line.no.token :: line.yes.token :: ts) text) :
    ∃ nodes' rest, loadLine questions nodes (number line.index) ⟨text, false⟩
        = .done (some nodes', ⟨rest, false⟩) ∧ Spells ts rest ∧ Built (pre ++ [line]) nodes' := by
  obtain ⟨a, ha, hindex, hpdf, hroot, hunique⟩ := exists_node h hfollows
  have hfind : nodeFind nodes (atoi (number line.index)) = .done a := by
    rw [atoi_number hfollows.inRange.1 hfollows.inRange.2]
    exact nodeFind_eq ha hindex hunique
  unfold loadLine
  rw [hfind, Outcome.bind_done]
  -- the question, the no child and the yes child, token by token
  obtain ⟨rest₁, heq₁, hspells₁⟩ := withToken_spells hspells (hlength _ (by simp [Line.tokens])) _
  rw [heq₁, hknown, Outcome.bind_done]
  obtain ⟨rest₂, no, heq₂, hspells₂, hno, hnoQuest⟩ :=
    withChild_spells hfollows.no hspells₁ (hlength _ (by simp [Line.tokens])) _
  rw [heq₂]
  obtain ⟨rest₃, yes, heq₃, hspells₃, hyes, hyesQuest⟩ :=
    withChild_spells hfollows.yes hspells₂ (hlength _ (by simp [Line.tokens])) _
  rw [heq₃]
  exact ⟨addLine nodes a line.question no yes, rest₃, rfl, hspells₃,
    built_addLine h hfollows ha hindex hpdf hroot hno hyes hnoQuest hyesQuest⟩

/-- A printed number is not a single other character. -/
theorem number_ne (i : Int) (c : Char) (hc : (c.isDigit || c == '-') = false) :
    number i ≠ [c] := by
  intro h
  have hnum := isNum_number i
  rw [h, isNum, List.all_cons, hc] at hnum
  exact absurd hnum (by simp)

section Loading

variable {questions : List Question} {fp fp₁ fp₂ : File} {nodes nodes₁ : List Node}

/-- The end of the lines. -/
theorem loadNodes_close (htoken : getPatternToken fp = some (some ['}'], fp₁)) :
    loadNodes questions fp nodes = .done (some nodes, fp₁) := by
  rw [loadNodes]
  split
  next hnone => cases hnone.symm.trans htoken
  next hnone => cases hnone.symm.trans htoken
  next buff fp₁' hsome =>
    obtain ⟨hbuff, rfl⟩ := Prod.mk.inj (Option.some.inj (hsome.symm.trans htoken))
    rw [if_pos (Option.some.inj hbuff)]

/-- A turn of the loop. -/
theorem loadNodes_eq {buff : Str} (htoken : getPatternToken fp = some (some buff, fp₁))
    (hbuff : buff ≠ ['}'])
    (hline : loadLine questions nodes buff fp₁ = .done (some nodes₁, fp₂)) :
    loadNodes questions fp nodes = loadNodes questions fp₂ nodes₁ := by
  rw [loadNodes]
  split
  next hnone => cases hnone.symm.trans htoken
  next hnone => cases hnone.symm.trans htoken
  -- the one branch that goes on
  next t fp₁' hsome =>
    obtain ⟨ht, rfl⟩ := Prod.mk.inj (Option.some.inj (hsome.symm.trans htoken))
    obtain rfl := Option.some.inj ht
    rw [if_neg hbuff]
    split
    next hdone =>
      obtain ⟨hnodes, rfl⟩ := Prod.mk.inj (Outcome.done.inj (hdone.symm.trans hline))
      rw [Option.some.inj hnodes]
    next hdone => cases hdone.symm.trans hline
    next hdone => cases hdone.symm.trans hline
    next hdone => cases hdone.symm.trans hline

/-- **The lines are loaded one after the other.** -/
theorem loadNodes_spells {post pre : List Line} (h : Built pre nodes)
    (hfollows : ∀ pre' line post', post = pre' ++ line :: post' → Follows (pre ++ pre') line)
    (hknown : ∀ line ∈ post, Known questions line.question) {ts : List Str} {text : Str}
    (hlength : ∀ t ∈ post.flatMap Line.tokens, t.length < hts_maxbuflen)
    (hspells : Spells (post.flatMap Line.tokens ++ ['}'] :: ts) text) :
    ∃ nodes' rest, loadNodes questions ⟨text, false⟩ nodes
        = .done (some nodes', ⟨rest, false⟩) ∧ Spells ts rest ∧ Built (pre ++ post) nodes' := by
  induction post generalizing pre nodes text with
  | nil =>
    -- only the closing brace is left
    obtain ⟨rest, htoken, hrest⟩ := getPatternToken_spells hspells (by decide)
    exact ⟨nodes, rest, loadNodes_close htoken, hrest, by rwa [List.append_nil]⟩
  | cons line post ih =>
    -- what follows the lines before follows this one as well
    have hfirst : Follows pre line := by
      have := hfollows [] line post rfl
      rwa [List.append_nil] at this
    rw [List.flatMap_cons] at hlength
    have hlengths : ∀ t ∈ line.tokens, t.length < hts_maxbuflen :=
      fun t ht => hlength t (List.mem_append_left _ ht)
    obtain ⟨rest, htoken, hrest⟩ := getPatternToken_spells hspells
      (hlengths (number line.index) (by simp [Line.tokens]))
    obtain ⟨nodes₁, rest₁, hline, hspells₁, hbuilt₁⟩ := loadLine_spells h hfirst
      (hknown line List.mem_cons_self) hlengths hrest
    obtain ⟨nodes', rest', hload, hspells', hbuilt'⟩ := ih hbuilt₁
      (fun pre' l post' heq => by
        have := hfollows (line :: pre') l post' (by rw [heq, List.cons_append])
        rwa [List.append_cons] at this)
      (fun l hl => hknown l (List.mem_cons_of_mem line hl))
      (fun t ht => hlength t (List.mem_append_right _ ht)) hspells₁
    refine ⟨nodes', rest', ?_, hspells', by rwa [List.append_assoc] at hbuilt'⟩
    rw [loadNodes_eq htoken (number_ne _ '}' (by decide)) hline, hload]

end Loading

/-! ## The nodes of a tree -/

/-- Node `a` is the root of the tree. -/
inductive Represents (nodes : List Node) : Nat → NumberedTree → Prop
  | leaf {a : Nat} {name : Str} (hquest : (nodes.getD a default).quest = none)
      (hpdf : (nodes.getD a default).pdf = leafNumber name) : Represents nodes a (.leaf name)
  | node {a n y : Nat} {index : Int} {question : Question} {no yes : NumberedTree}
      (hquest : (nodes.getD a default).quest = some question)
      (hpdf : (nodes.getD a default).pdf = 0) (hn : (nodes.getD a default).no = some n)
      (hy : (nodes.getD a default).yes = some y) (hno : Represents nodes n no)
      (hyes : Represents nodes y yes) : Represents nodes a (.node index question no yes)

/-- A node with a pdf is a leaf. -/
theorem Represents.eval_of_pdf {nodes : List Node} {a : Nat} {t : NumberedTree}
    (h : Represents nodes a t) (hpos : (nodes.getD a default).pdf > 0) (string : Str) :
    t.eval string = (nodes.getD a default).pdf := by
  cases h with
  | leaf hquest hpdf => exact hpdf.symm
  | node hquest hpdf => exact absurd hpos (by rw [hpdf]; decide)

/-- The search decides as the tree does. -/
theorem Represents.search {nodes : List Node} {string : Str} {a : Nat} {t : NumberedTree}
    (h : Represents nodes a t) (hlinked : Linked nodes) (ha : a < nodes.length) {fuel : Nat}
    {result : Outcome Int} (hresult : searchFrom nodes string fuel a = some result) :
    result = .done (t.eval string) := by
  induction h generalizing fuel with
  | leaf hquest hpdf =>
    cases fuel with
    | zero => exact nomatch hresult
    | succ fuel =>
      rw [searchFrom, hquest, hpdf] at hresult
      exact (Option.some.inj hresult).symm
  | @node a n y index question no yes hquest hpdf hn hy hno hyes ihno ihyes =>
    cases fuel with
    | zero => exact nomatch hresult
    | succ fuel =>
      -- a node with a question has two children further on
      obtain ⟨hshort, n', y', hn', hy', -, -, hnlt, hylt⟩ := hlinked a ha question hquest
      obtain rfl : n = n' := Option.some.inj (hn.symm.trans hn')
      obtain rfl : y = y' := Option.some.inj (hy.symm.trans hy')
      obtain ⟨holds, hholds, hiff⟩ := matchAny_eq string hshort
      rw [searchFrom, hquest] at hresult
      simp only [questionMatch, hholds, hn, hy] at hresult
      -- the answer decides the child, and a leaf ends the search
      cases holds with
      | true =>
        have heval : (NumberedTree.node index question no yes).eval string = yes.eval string :=
          if_pos (hiff.mp rfl)
        rw [heval]
        simp only [if_true] at hresult
        split at hresult
        next hpos =>
          rw [hyes.eval_of_pdf hpos]
          exact (Option.some.inj hresult).symm
        next => exact ihyes hylt hresult
      | false =>
        have heval : (NumberedTree.node index question no yes).eval string = no.eval string :=
          if_neg fun hq => by simpa using hiff.mpr hq
        rw [heval]
        simp only [Bool.false_eq_true, if_false] at hresult
        split at hresult
        next hpos =>
          rw [hno.eval_of_pdf hpos]
          exact (Option.some.inj hresult).symm
        next => exact ihno hnlt hresult

/-- When all lines are loaded, each node leads to the tree that its number names. -/
theorem represents_of_built {ls : List Line} {nodes : List Node} (h : Built ls nodes)
    (hne : ∀ line ∈ ls, line.no ≠ .node 0 ∧ line.yes ≠ .node 0) (t : NumberedTree) :
    (∀ line ∈ t.lines, line ∈ ls) → ∀ a < nodes.length, Named (nodes.getD a default) t.child →
      (0 < a ∨ t.child = .node 0 ∧ a = 0) → (0 < a → t.child ≠ .node 0) →
      Represents nodes a t := by
  induction t with
  | leaf name =>
    intro _ a ha hnamed hroot _
    have hpos : 0 < a := hroot.resolve_right fun h => nomatch h.1
    exact .leaf (h.noQuest a ha hpos hnamed.1) hnamed.2
  | node index question no yes ihno ihyes =>
    intro hlines a ha hnamed hroot hchild
    obtain ⟨b, hb⟩ := h.placed _ (hlines _ List.mem_cons_self)
    have hab : b = a := by
      rcases Nat.eq_zero_or_pos a with hzero | hpos
      · -- the root
        rcases hroot with hpos | ⟨hindex, -⟩
        · omega
        · exact (hb.root (Child.node.inj hindex)).trans hzero.symm
      · have hindex : (nodes.getD a default).index ≠ 0 := by
          rw [hnamed.1]
          exact fun hzero => hchild hpos (congrArg Child.node hzero)
        exact h.unique a ha b hb.lt hindex (hb.index_eq.trans hnamed.1.symm)
    rw [hab] at hb
    obtain ⟨n, hn, hnpos, hnlt, hnoNamed⟩ := hb.no
    obtain ⟨y, hy, hypos, hylt, hyesNamed⟩ := hb.yes
    obtain ⟨hnoNe, hyesNe⟩ := hne _ (hlines _ List.mem_cons_self)
    refine .node hb.quest_eq hb.pdf_eq hn hy ?_ ?_
    · exact ihno (fun l hl => hlines l (by simp [NumberedTree.lines, hl])) n hnlt hnoNamed
        (Or.inl hnpos) fun _ => hnoNe
    · exact ihyes (fun l hl => hlines l (by simp [NumberedTree.lines, hl])) y hylt hyesNamed
        (Or.inl hypos) fun _ => hyesNe

/-! ## Trees as they are written -/

/-- The number that a child names. -/
def Child.inner : Child → List Int
  | node index => [index]
  | leaf _ => []

/-- The numbers that lines lead to. -/
def targets (ls : List Line) : List Int := ls.flatMap fun line => line.no.inner ++ line.yes.inner

/-- The numbers of the inner nodes among the children. -/
theorem mem_inner {child : Child} {index : Int} :
    index ∈ child.inner ↔ child = .node index := by
  cases child <;> simp [Child.inner, eq_comm]

/-- The numbers that the lines name as children. -/
theorem mem_targets {ls : List Line} {index : Int} :
    index ∈ targets ls ↔ ∃ line ∈ ls, line.no = .node index ∨ line.yes = .node index := by
  simp [targets, mem_inner]

/-- Targets of lines one after the other. -/
theorem targets_append (ls ls' : List Line) : targets (ls ++ ls') = targets ls ++ targets ls' :=
  List.flatMap_append

/-- A tree has one line for each of its numbers. -/
theorem NumberedTree.map_index_lines (t : NumberedTree) : t.lines.map Line.index = t.indices := by
  induction t with
  | leaf name => rfl
  | node index question no yes ihno ihyes =>
    rw [lines, indices, List.map_cons, List.map_append, ihno, ihyes]

/-- Each node but the root is led to once. -/
theorem NumberedTree.targets_lines (t : NumberedTree) :
    (t.child.inner ++ targets t.lines).Perm t.indices := by
  induction t with
  | leaf name => exact List.Perm.nil
  | node index question no yes ihno ihyes =>
    have htargets : targets (lines (node index question no yes))
        = (no.child.inner ++ yes.child.inner) ++ (targets no.lines ++ targets yes.lines) := by
      rw [lines, ← List.singleton_append, targets_append, targets_append]
      simp [targets]
    show (index :: targets (lines (node index question no yes))).Perm
      (index :: (no.indices ++ yes.indices))
    rw [htargets]
    refine List.Perm.cons index ?_
    -- the children of the root come first, each before the targets of its own lines
    calc ((no.child.inner ++ yes.child.inner) ++ (targets no.lines ++ targets yes.lines)).Perm
          ((no.child.inner ++ targets no.lines) ++ (yes.child.inner ++ targets yes.lines)) := by
          rw [List.append_assoc, List.append_assoc]
          refine List.Perm.append_left _ ?_
          rw [← List.append_assoc, ← List.append_assoc]
          exact List.perm_append_comm.append_right _
      List.Perm _ (no.indices ++ yes.indices) := ihno.append ihyes

/-- A node comes after the line that leads to it. -/
def ParentsFirst (ls : List Line) : Prop :=
  ∀ pre line post, ls = pre ++ line :: post →
    line.index = 0 ∨ ∃ l ∈ pre, l.no = .node line.index ∨ l.yes = .node line.index

/-- A tree and the order of its lines. -/
structure WrittenTree where
  tree : NumberedTree
  lines : List Line
  perm : lines.Perm tree.lines
  order : ParentsFirst lines
  /-- The root has number 0. -/
  root : tree.child.inner = [] ∨ tree.child.inner = [0]
  nodup : tree.indices.Nodup
  readable : ∀ line ∈ tree.lines, line.no.Readable ∧ line.yes.Readable
  /-- A tree without questions is its leaf. -/
  name : ∀ name, tree = .leaf name → name.all Char.isDigit = false ∧ name ≠ ['{']

namespace WrittenTree

variable (w : WrittenTree)

def tokens : List Str :=
  match w.tree with
  | .leaf name => [name]
  | .node .. => ['{'] :: (w.lines.flatMap Line.tokens ++ [['}']])

/-- No line leads to the root, and no two lines to one node. -/
theorem nodup_targets : (0 :: targets w.lines).Nodup ∨ w.lines = [] := by
  cases htree : w.tree with
  | leaf name =>
    -- a tree of one leaf has no lines
    have hperm := w.perm
    rw [htree] at hperm
    exact Or.inr hperm.eq_nil
  | node index question no yes =>
    -- the root's number and the targets are the numbers of all inner nodes
    have hroot : index = 0 := by
      have := w.root
      rw [htree] at this
      simpa [NumberedTree.child, Child.inner] using this
    have htargets := w.tree.targets_lines
    rw [htree] at htargets
    have hperm : (targets w.lines).Perm (targets (NumberedTree.node index question no yes).lines) :=
      (htree ▸ w.perm).flatMap_right _
    refine Or.inl (((hperm.cons 0).trans ?_).nodup_iff.mpr (htree ▸ w.nodup))
    rw [← hroot]
    exact htargets

theorem nodup_index : (w.lines.map Line.index).Nodup := by
  refine (w.perm.map Line.index).nodup_iff.mpr ?_
  rw [w.tree.map_index_lines]
  exact w.nodup

/-- The children of every line are readable. -/
theorem readable_lines : ∀ line ∈ w.lines, line.no.Readable ∧ line.yes.Readable :=
  fun line h => w.readable line (w.perm.subset h)

/-- **Every line follows those before it.** -/
theorem follows {pre post : List Line} {line : Line} (heq : w.lines = pre ++ line :: post) :
    Follows pre line := by
  have hmem : line ∈ w.lines := by simp [heq]
  have hindices := w.nodup_index
  rw [heq, List.map_append, List.map_cons] at hindices
  have hfresh : ∀ l ∈ pre, l.index ≠ line.index := by
    intro l hl hsame
    exact (List.nodup_append.mp hindices).2.2 l.index (List.mem_map_of_mem hl) line.index
      List.mem_cons_self hsame
  have htargets : (0 :: targets w.lines).Nodup :=
    w.nodup_targets.resolve_right fun hnil => by simp [hnil] at heq
  obtain ⟨hzero, htargets⟩ := List.nodup_cons.mp htargets
  have hnonzero : ∀ index, index ∈ targets w.lines → index ≠ 0 := by
    rintro index hindex rfl
    exact hzero hindex
  rw [heq, ← List.singleton_append, targets_append, targets_append] at htargets
  have hself : targets [line] = line.no.inner ++ line.yes.inner := by simp [targets]
  have hnew : ∀ index, line.no = .node index ∨ line.yes = .node index →
      index ≠ 0 ∧ ∀ l ∈ pre, l.no ≠ .node index ∧ l.yes ≠ .node index := by
    intro index hchild
    have hin : index ∈ targets [line] := mem_targets.mpr ⟨line, by simp, hchild⟩
    refine ⟨hnonzero index (mem_targets.mpr ⟨line, hmem, hchild⟩), fun l hl => ?_⟩
    have hnot : index ∉ targets pre := fun hpre =>
      (List.nodup_append.mp htargets).2.2 index hpre index (List.mem_append_left _ hin) rfl
    rw [mem_targets] at hnot
    exact ⟨fun h => hnot ⟨l, hl, Or.inl h⟩, fun h => hnot ⟨l, hl, Or.inr h⟩⟩
  refine ⟨?_, hfresh, ?_, (w.readable_lines line hmem).1, (w.readable_lines line hmem).2, hnew, ?_⟩
  · rcases w.order pre line post heq with hroot | ⟨l, hl, hchild⟩
    · refine Or.inl ⟨hroot, ?_⟩
      cases pre with
      | nil => rfl
      | cons l pre =>
        -- the first line is the root's too
        rcases w.order [] l (pre ++ line :: post) heq with hzero' | ⟨l', hl', -⟩
        · exact absurd (hzero'.trans hroot.symm) (hfresh l List.mem_cons_self)
        · exact absurd hl' List.not_mem_nil
    · refine Or.inr ⟨?_, l, hl, hchild⟩
      exact hnonzero _ (mem_targets.mpr ⟨l, by simp [heq, hl], hchild⟩)
  · rcases w.order pre line post heq with hroot | ⟨l, hl, hchild⟩
    · rw [hroot]
      decide
    · obtain ⟨hno, hyes⟩ := w.readable_lines l (by simp [heq, hl])
      rcases hchild with h | h
      · exact (h ▸ hno : (Child.node line.index).Readable)
      · exact (h ▸ hyes : (Child.node line.index).Readable)
  · intro index hno hyes
    have hboth := (List.nodup_append.mp (List.nodup_append.mp htargets).2.1).1
    rw [hself] at hboth
    exact (List.nodup_append.mp hboth).2.2 index (mem_inner.mpr hno) index (mem_inner.mpr hyes) rfl

end WrittenTree

/-- **A written tree is loaded.** -/
theorem treeLoad_spells {questions : List Question} (w : WrittenTree)
    (hknown : ∀ line ∈ w.lines, Known questions line.question) {ts : List Str} {text : Str}
    (hlength : ∀ t ∈ w.tokens, t.length < hts_maxbuflen)
    (hspells : Spells (w.tokens ++ ts) text) :
    ∃ nodes rest, treeLoad questions ⟨text, false⟩ = .done (some nodes, ⟨rest, false⟩) ∧
      Spells ts rest ∧ Represents nodes 0 w.tree := by
  cases htree : w.tree with
  | leaf name =>
    -- a tree of one leaf is one token
    obtain ⟨hdigits, hbrace⟩ := w.name name htree
    have htokens : w.tokens = [name] := by rw [WrittenTree.tokens, htree]
    rw [htokens] at hlength hspells
    obtain ⟨rest, htoken, hrest⟩ := getPatternToken_spells hspells (hlength name (by simp))
    refine ⟨[{ pdf := leafNumber name }], rest, ?_, hrest, .leaf rfl rfl⟩
    rw [treeLoad, htoken]
    simp only [if_neg hbrace, name2num, hdigits, Bool.false_eq_true, if_false]
    rfl
  | node index question no yes =>
    -- otherwise a block of lines in braces
    have htokens : w.tokens = ['{'] :: (w.lines.flatMap Line.tokens ++ [['}']]) := by
      rw [WrittenTree.tokens, htree]
    rw [htokens] at hlength hspells
    rw [List.cons_append, List.append_assoc] at hspells
    obtain ⟨rest, htoken, hrest⟩ := getPatternToken_spells hspells (by decide)
    obtain ⟨nodes, rest', hload, hspells', hbuilt⟩ := loadNodes_spells built_nil
      (fun pre line post heq => w.follows heq) hknown
      (fun t ht => hlength t (by simp [ht])) hrest
    refine ⟨nodes, rest', ?_, hspells', ?_⟩
    · rw [treeLoad, htoken]
      exact hload
    · have hroot : index = 0 := by
        have := w.root
        rw [htree] at this
        simpa [NumberedTree.child, Child.inner] using this
      subst hroot
      rw [List.nil_append] at hbuilt
      -- the root is nobody's child
      have hzero : 0 ∉ targets w.lines := by
        rcases w.nodup_targets with hnodup | hnil
        · exact (List.nodup_cons.mp hnodup).1
        · simp [hnil, targets]
      rw [mem_targets] at hzero
      refine represents_of_built hbuilt (fun line hline => ?_) _ ?_ 0 ?_ hbuilt.root
        (Or.inr ⟨rfl, rfl⟩) fun h => absurd h (lt_irrefl 0)
      · exact ⟨fun h => hzero ⟨line, hline, Or.inl h⟩, fun h => hzero ⟨line, hline, Or.inr h⟩⟩
      · exact fun line hline => (htree ▸ w.perm).symm.subset hline
      · rw [hbuilt.length_eq]
        omega

/-! ## The first token of a tree -/

/-- The first occurrence is behind a part without one. -/
theorem strchr_append {c : Char} {pre : Str} (h : c ∉ pre) (post : Str) :
    strchr (pre ++ c :: post) c = some pre.length := by
  induction pre with
  | nil => simp [strchr, List.idxOf?_cons]
  | cons d pre ih =>
    rw [List.mem_cons, not_or] at h
    have hrest := ih h.2
    rw [strchr] at hrest ⊢
    rw [List.cons_append, List.idxOf?_cons, hrest, if_neg (by simpa using Ne.symm h.1)]
    rfl

/-- The last occurrence is before a part without one. -/
theorem strrchr_append {c : Char} {post : Str} (h : c ∉ post) (pre : Str) :
    strrchr (pre ++ c :: post) c = some pre.length := by
  have hrev : (pre ++ c :: post).reverse = post.reverse ++ c :: pre.reverse := by simp
  have hfind := strchr_append (show c ∉ post.reverse by simpa using h) pre.reverse
  rw [strchr] at hfind
  rw [strrchr, hrev, hfind]
  simp

/-- Nothing is found where the character does not occur. -/
theorem strchr_eq_none {c : Char} {string : Str} (h : c ∉ string) : strchr string c = none := by
  rw [strchr, List.idxOf?_eq_none_iff]
  exact h

/-- The characters that structure the first token. -/
def PlainPattern (p : Str) : Prop :=
  ∀ c ∈ p, c ≠ ',' ∧ c ≠ '{' ∧ c ≠ '}' ∧ c ≠ '[' ∧ c ≠ ']' ∧ c ≠ '(' ∧ c ≠ ')' ∧ c ≠ '\x00'

/-- The patterns in braces, if there are any. -/
def braces (patterns : List Str) : Str :=
  if patterns = [] then [] else '{' :: ([','].intercalate patterns ++ ['}'])

/-- The first token of a tree. -/
def headToken (patterns : List Str) (state : Int) : Str :=
  braces patterns ++ '[' :: (number state ++ [']'])

/-- A printed number has digits and a sign only. -/
theorem not_mem_number {c : Char} (hc : (c.isDigit || c == '-') = false) (i : Int) :
    c ∉ number i := by
  intro h
  have hnum := isNum_number i
  rw [isNum, List.all_eq_true] at hnum
  rw [hnum c h] at hc
  exact absurd hc (by simp)

/-- Between the braces there are the characters of the patterns and the commas. -/
theorem not_mem_braces {patterns : List Str} {c : Char} (hbrace : c ≠ '{' ∧ c ≠ '}')
    (hcomma : c ≠ ',') (hc : ∀ p ∈ patterns, c ∉ p) : c ∉ braces patterns := by
  unfold braces
  split
  · exact List.not_mem_nil
  · have hbody := not_mem_intercalate hcomma hc
    simp [hbrace.1, hbrace.2, hbody]

/-- Plain patterns have no end of string in them. -/
theorem nul_not_mem_braces {patterns : List Str} (hplain : ∀ p ∈ patterns, PlainPattern p) :
    '\x00' ∉ braces patterns :=
  not_mem_braces (by decide) (by decide) fun p hp h => (hplain p hp _ h).2.2.2.2.2.2.2 rfl

/-- Nor has the number in its bracket another character. -/
theorem not_mem_bracket_number {c : Char} (hc : (c.isDigit || c == '-') = false) (hne : c ≠ '[')
    (i : Int) : c ∉ '[' :: number i := by
  rw [List.mem_cons, not_or]
  exact ⟨hne, not_mem_number hc i⟩

/-- The state is the number in the last brackets, and the head is cut before its end. -/
theorem getStateNum_headToken {patterns : List Str} (hplain : ∀ p ∈ patterns, PlainPattern p)
    {state : Int} (hlo : -intMax - 1 ≤ state) (hhi : state ≤ intMax) :
    getStateNum (headToken patterns state)
      = (state, braces patterns ++ '[' :: (number state ++ ['\x00'])) := by
  -- the first bracket is the head's own
  have hleft : '[' ∉ braces patterns :=
    not_mem_braces (by decide) (by decide) fun p hp h => (hplain p hp _ h).2.2.2.1 rfl
  have hnul : '\x00' ∉ headToken patterns state := by
    have hnumber : '\x00' ∉ number state := not_mem_number (by decide) state
    simp [headToken, nul_not_mem_braces hplain, hnumber]
  have hright : headToken patterns state
      = (braces patterns ++ '[' :: number state) ++ ']' :: [] := by
    simp [headToken]
  -- the closing bracket is overwritten by an end of string
  have hset : (headToken patterns state).set (braces patterns ++ '[' :: number state).length '\x00'
      = (braces patterns ++ '[' :: number state) ++ ['\x00'] := by
    rw [hright]
    simp
  unfold getStateNum
  rw [c_str_of_nul_not_mem hnul]
  have hfirst : strchr (headToken patterns state) '[' = some (braces patterns).length :=
    strchr_append hleft _
  have hlast : strrchr (headToken patterns state) ']'
      = some (braces patterns ++ '[' :: number state).length := by
    rw [hright]
    exact strrchr_append List.not_mem_nil _
  simp only [hfirst, hlast, hset]
  -- what is left behind the bracket is the number
  have hdrop : ((braces patterns ++ '[' :: number state) ++ ['\x00']).drop
      ((braces patterns).length + 1) = number state ++ '\x00' :: [] := by
    rw [List.append_assoc, List.drop_append, List.drop_of_length_le (by omega)]
    simp
  rw [hdrop, c_str_append_nul (not_mem_number (by decide) state), atoi_number hlo hhi]
  simp

/-- What is between the first brace and the last one is parsed. No parenthesis stands behind the
one, and none in front of the other. -/
theorem treeParsePattern_of_c_str {buff body rest : Str}
    (h : c_str buff = '{' :: (body ++ '}' :: rest)) (hopen : '(' ∉ body) (hclose : ')' ∉ body)
    (hrest : '}' ∉ rest) :
    treeParsePattern buff = some (terminated ',' (body ++ ',' :: rest)) := by
  -- the braces that are found are the outer ones
  have hleft : strchr ('{' :: (body ++ '}' :: rest)) '{' = some 0 :=
    @strchr_append '{' [] List.not_mem_nil _
  have hright : strrchr (body ++ '}' :: rest) '}' = some body.length := strrchr_append hrest body
  have hhead : (body ++ '}' :: rest).head? ≠ some '(' := by
    cases body with
    | nil => simp
    | cons c body =>
      rw [List.cons_append, List.head?_cons, ne_eq, Option.some.injEq]
      rintro rfl
      exact hopen List.mem_cons_self
  -- no second pair of parentheses is stripped
  have hlast : ¬ (0 < body.length ∧ (body ++ '}' :: rest)[body.length - 1]? = some ')') := by
    rintro ⟨hpos, hget⟩
    rw [List.getElem?_append_left (by omega)] at hget
    exact hclose (List.mem_of_getElem? hget)
  have hset : (body ++ '}' :: rest).set body.length ',' = body ++ ',' :: rest := by simp
  unfold treeParsePattern
  rw [h, hleft]
  simp only [Nat.zero_add, List.drop_succ_cons, List.drop_zero, if_neg hhead, hright, if_neg hlast,
    hset]

/-- The patterns are the pieces between the braces. -/
theorem treeParsePattern_headToken {patterns : List Str} (hplain : ∀ p ∈ patterns, PlainPattern p)
    (state : Int) :
    treeParsePattern (braces patterns ++ '[' :: (number state ++ ['\x00'])) = some patterns := by
  -- the string ends where the bracket was
  have hc_str : c_str (braces patterns ++ '[' :: (number state ++ ['\x00']))
      = braces patterns ++ '[' :: number state := by
    have hnul : '\x00' ∉ braces patterns ++ '[' :: number state := by
      rw [List.mem_append, not_or]
      exact ⟨nul_not_mem_braces hplain, not_mem_bracket_number (by decide) (by decide) state⟩
    have hsplit : braces patterns ++ '[' :: (number state ++ ['\x00'])
        = (braces patterns ++ '[' :: number state) ++ '\x00' :: [] := by simp
    rw [hsplit, c_str_append_nul hnul]
  by_cases hnil : patterns = []
  · have hbraces : braces patterns = [] := if_pos hnil
    -- without patterns there is no brace, and every label fits
    rw [treeParsePattern, hc_str, hbraces, List.nil_append,
      strchr_eq_none (not_mem_bracket_number (by decide) (by decide) state), hnil]
  · have hbraces : braces patterns ++ '[' :: number state
        = '{' :: ([','].intercalate patterns ++ '}' :: '[' :: number state) := by
      rw [braces, if_neg hnil]
      simp
    have hopen : '(' ∉ [','].intercalate patterns :=
      not_mem_intercalate (by decide) fun p hp h => (hplain p hp _ h).2.2.2.2.2.1 rfl
    have hclose : ')' ∉ [','].intercalate patterns :=
      not_mem_intercalate (by decide) fun p hp h => (hplain p hp _ h).2.2.2.2.2.2.1 rfl
    rw [treeParsePattern_of_c_str (hc_str.trans hbraces) hopen hclose
      (not_mem_bracket_number (by decide) (by decide) state)]
    -- the comma over the last brace ends the last pattern, and what is behind it is left out
    have hpieces : [','].intercalate patterns ++ ',' :: '[' :: number state
        = [','].intercalate (patterns ++ ['[' :: number state]) := by
      rw [intercalate_concat [','] hnil]
      rfl
    rw [hpieces, terminated_intercalate]
    intro p hp
    rcases List.mem_append.mp hp with hp | hp
    · exact fun h => (hplain p hp _ h).1 rfl
    · rw [List.mem_singleton.mp hp]
      exact not_mem_bracket_number (by decide) (by decide) state

end Vox.Hts
