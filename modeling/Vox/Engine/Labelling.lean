import Vox.Engine.Commands
import Vox.Lib.Run

/-!
# Engine — labelling the phrases

`create_buffers` starts one labelling job for each phrase, five seconds apart.
A job is a chain of four shell commands, each started when the one before it
exits; when the last exits, the job reads the label file and asks the server
for a buffer, which gets the next number. Files are named by a random prefix.
Nothing records which phrase a buffer belongs to: the SynthDef variants of the
phrases count on buffer `k` being that of phrase `k`.

An event of the model is what the outside does next: the routine wakes and
starts a phrase, with the prefix it happens to draw, or the running command of
some job exits. What a command reads and writes is taken at its exit. Every
interleaving of the jobs is a list of events.

Main results:

* `Consistent.step` — while no two running jobs share a prefix, each has the
  text it needs next in its own file.
* `buffers_in_order_iff` — once all jobs have finished, buffer `k` holds the
  labels of phrase `k` for all `k` exactly when the jobs finished in the order
  of their phrases.
-/

namespace Vox.Engine

open Lib

-- ---------------------------------------------------------------------------
-- The pipeline
-- ---------------------------------------------------------------------------

/-- The four commands of `labelize`, from the text of their input file to that
of their output file. -/
structure Tools where
  text2utt : String → String
  dumpfeats : String → String
  labelFull : String → String
  printLabels : String → String

/-- The files of a job, by their extensions. -/
inductive Extension
  | txt
  | utt
  | extractedFeatures
  | withDurations
  | lab
  deriving DecidableEq, Repr

structure ToolCommand where
  input : Extension
  output : Extension
  run : String → String

/-- `text2utt`, `dumpfeats`, `convertFeaturesToLabels` and
`removeDurationsFromLabels`, in the order of the chain. -/
def pipeline (tools : Tools) : List ToolCommand :=
  [⟨.txt, .utt, tools.text2utt⟩, ⟨.utt, .extractedFeatures, tools.dumpfeats⟩,
    ⟨.extractedFeatures, .withDurations, tools.labelFull⟩,
    ⟨.withDurations, .lab, tools.printLabels⟩]

/-- The labels of a phrase. -/
def labelsOf (tools : Tools) (phrase : String) : String :=
  tools.printLabels (tools.labelFull (tools.dumpfeats (tools.text2utt phrase)))

-- ---------------------------------------------------------------------------
-- Jobs
-- ---------------------------------------------------------------------------

/-- A job: its prefix, and how many of its commands have exited. -/
structure Job where
  pre : String
  stage : Nat

def Job.Running (job : Job) : Prop := job.stage < 4

/-- The jobs in the order of their phrases, the files by prefix and extension,
and the texts of the buffers in the order of their numbers. -/
structure Labelling where
  jobs : List Job
  files : String → Extension → String
  buffers : List String

def Labelling.initial : Labelling := ⟨[], fun _ _ => "", []⟩

def writeFile (files : String → Extension → String) (pre : String) (extension : Extension)
    (text : String) : String → Extension → String :=
  fun pre' extension' =>
    if pre' = pre ∧ extension' = extension then text else files pre' extension'

inductive LabelEvent
  | start (pre : String)
  | exit (job : Nat)

section Step

variable (tools : Tools) (phrases : List String)

/-- The next phrase: its text goes to the file of the prefix, and the first
command starts. -/
def startJob (s : Labelling) (pre : String) : Labelling :=
  match phrases[s.jobs.length]? with
  | none => s
  | some text =>
    { s with
      jobs := s.jobs ++ [⟨pre, 0⟩]
      files := writeFile s.files pre .txt text }

/-- The running command of a job exits. After the last one, `loadCollection`
takes the label file into the next buffer. -/
def exitCommand (s : Labelling) (j : Nat) : Labelling :=
  match s.jobs[j]? with
  | none => s
  | some job =>
    match (pipeline tools)[job.stage]? with
    | none => s
    | some command =>
      let files :=
        writeFile s.files job.pre command.output (command.run (s.files job.pre command.input))
      { jobs := s.jobs.set j { job with stage := job.stage + 1 }
        files := files
        buffers :=
          if job.stage + 1 = (pipeline tools).length then s.buffers ++ [files job.pre .lab]
          else s.buffers }

def labelStep (s : Labelling) : LabelEvent → Labelling
  | .start pre => startJob phrases s pre
  | .exit j => exitCommand tools s j

end Step

-- ---------------------------------------------------------------------------
-- What a job has in its files
-- ---------------------------------------------------------------------------

/-- The file that the command of a stage reads; after the last, the label file. -/
def stageFile : Nat → Extension
  | 0 => .txt
  | 1 => .utt
  | 2 => .extractedFeatures
  | 3 => .withDurations
  | _ => .lab

/-- The text of that file for a phrase. -/
def stageText (tools : Tools) (phrase : String) (stage : Nat) : String :=
  ((pipeline tools).take stage).foldl (fun text command => command.run text) phrase

/-- The last file of a job is the labels. -/
theorem stageText_last (tools : Tools) (phrase : String) :
    stageText tools phrase 4 = labelsOf tools phrase := rfl

/-- The command of a stage takes its file to the next. -/
theorem pipeline_stage (tools : Tools) {stage : Nat} (h : stage < 4) :
    ∃ run, (pipeline tools)[stage]? = some ⟨stageFile stage, stageFile (stage + 1), run⟩ ∧
      ∀ phrase, run (stageText tools phrase stage) = stageText tools phrase (stage + 1) := by
  obtain rfl | rfl | rfl | rfl : stage = 0 ∨ stage = 1 ∨ stage = 2 ∨ stage = 3 := by omega
  · exact ⟨tools.text2utt, rfl, fun _ => rfl⟩
  · exact ⟨tools.dumpfeats, rfl, fun _ => rfl⟩
  · exact ⟨tools.labelFull, rfl, fun _ => rfl⟩
  · exact ⟨tools.printLabels, rfl, fun _ => rfl⟩

section Files

variable {files : String → Extension → String} {pre : String} {extension : Extension}
  {text : String}

@[simp] theorem writeFile_self : writeFile files pre extension text pre extension = text := by
  simp [writeFile]

theorem writeFile_of_ne {pre' : String} (h : pre' ≠ pre) (extension' : Extension) :
    writeFile files pre extension text pre' extension' = files pre' extension' := by
  simp [writeFile, h]

end Files

-- ---------------------------------------------------------------------------
-- Runs without a clash of prefixes
-- ---------------------------------------------------------------------------

section Run

variable (tools : Tools) (phrases : List String)

/-- The state as the jobs have left it: every running job has a prefix of its
own and, in the file that its command reads, the text of its phrase so far; one
buffer was taken for each finished job. -/
structure Consistent (s : Labelling) : Prop where
  started : s.jobs.length ≤ phrases.length
  stage_le : ∀ (j : Nat) (job : Job), s.jobs[j]? = some job → job.stage ≤ 4
  distinct : ∀ (i j : Nat) (a b : Job), s.jobs[i]? = some a → s.jobs[j]? = some b →
    a.Running → b.Running → a.pre = b.pre → i = j
  text : ∀ (j : Nat) (job : Job), s.jobs[j]? = some job → job.Running →
    ∃ phrase, phrases[j]? = some phrase ∧
      s.files job.pre (stageFile job.stage) = stageText tools phrase job.stage
  count : s.buffers.length = s.jobs.countP fun job => job.stage = 4

/-- A starting phrase draws a prefix that no running job has. -/
def FreshPrefix (s : Labelling) (e : LabelEvent) : Prop :=
  ∀ pre, e = .start pre → ∀ job ∈ s.jobs, job.Running → job.pre ≠ pre

variable {tools phrases} {s : Labelling}

theorem consistent_initial : Consistent tools phrases Labelling.initial where
  started := Nat.zero_le _
  stage_le := by simp [Labelling.initial]
  distinct := by simp [Labelling.initial]
  text := by simp [Labelling.initial]
  count := rfl

/-- A job with a prefix of its own finds none of its files written. -/
theorem Consistent.startJob (h : Consistent tools phrases s) {pre : String}
    (hfresh : FreshPrefix s (.start pre)) : Consistent tools phrases (startJob phrases s pre) := by
  unfold Engine.startJob
  split
  · exact h
  rename_i phrase hphrase
  have hlt : s.jobs.length < phrases.length := (List.getElem?_eq_some_iff.mp hphrase).1
  -- a job of the new list is an old one at its place, or the new one at the end
  have hjobs : ∀ (j : Nat) (job : Job), (s.jobs ++ [⟨pre, 0⟩])[j]? = some job →
      s.jobs[j]? = some job ∨ (j = s.jobs.length ∧ job = ⟨pre, 0⟩) := by
    intro j job hj
    rcases lt_trichotomy j s.jobs.length with hlt | rfl | hgt
    · rw [List.getElem?_append_left hlt] at hj
      exact .inl hj
    · simp only [List.getElem?_concat_length, Option.some.injEq] at hj
      exact .inr ⟨rfl, hj.symm⟩
    · rw [List.getElem?_eq_none (by simp; omega)] at hj
      cases hj
  refine ⟨?_, ?_, ?_, ?_, ?_⟩
  · -- the new job has a phrase of its own
    simp
    omega
  · -- stages: the new job is at its first
    intro j job hj
    rcases hjobs j job hj with hold | ⟨-, rfl⟩
    · exact h.stage_le j job hold
    · exact Nat.zero_le 4
  · -- prefixes: the new one is fresh among the running jobs
    intro i j a b hi hj ha hb hpre
    rcases hjobs i a hi with hi | ⟨rfl, rfl⟩ <;> rcases hjobs j b hj with hj | ⟨rfl, rfl⟩
    · exact h.distinct i j a b hi hj ha hb hpre
    · exact absurd hpre (hfresh pre rfl a (List.mem_of_getElem? hi) ha)
    · exact absurd hpre.symm (hfresh pre rfl b (List.mem_of_getElem? hj) hb)
    · rfl
  · -- texts: the new file is none of a running job
    intro j job hj hrun
    rcases hjobs j job hj with hold | ⟨rfl, rfl⟩
    · obtain ⟨text, htext, hfile⟩ := h.text j job hold hrun
      refine ⟨text, htext, ?_⟩
      show writeFile _ _ _ _ _ _ = _
      rw [writeFile_of_ne (hfresh pre rfl job (List.mem_of_getElem? hold) hrun)]
      exact hfile
    · exact ⟨phrase, hphrase, writeFile_self⟩
  · -- buffers: the new job has not finished
    simp [h.count]

/-- An exit where nothing runs. -/
theorem exitCommand_of_not_running {j : Nat}
    (h : ∀ job, s.jobs[j]? = some job → ¬ job.Running) : exitCommand tools s j = s := by
  unfold exitCommand
  split
  · rfl
  rename_i job hjob
  have hstage : (pipeline tools)[job.stage]? = none :=
    List.getElem?_eq_none (not_lt.mp (h job hjob))
  rw [hstage]

/-- An exit of a running job: it has the next text in its next file, and a
buffer with the labels of its phrase if that was the last command. -/
theorem Consistent.exitCommand_eq (h : Consistent tools phrases s) {j : Nat} {job : Job}
    (hjob : s.jobs[j]? = some job) (hrun : job.Running) :
    ∃ phrase, phrases[j]? = some phrase ∧
      exitCommand tools s j =
        { jobs := s.jobs.set j { job with stage := job.stage + 1 }
          files := writeFile s.files job.pre (stageFile (job.stage + 1))
            (stageText tools phrase (job.stage + 1))
          buffers :=
            if job.stage = 3 then s.buffers ++ [labelsOf tools phrase] else s.buffers } := by
  obtain ⟨phrase, hphrase, hfile⟩ := h.text j job hjob hrun
  obtain ⟨run, hcommand, hnext⟩ := pipeline_stage tools hrun
  refine ⟨phrase, hphrase, ?_⟩
  have hlast : (job.stage + 1 = (pipeline tools).length) ↔ job.stage = 3 := by
    show job.stage + 1 = 4 ↔ _
    omega
  simp only [exitCommand, hjob, hcommand, hfile, hnext, hlast]
  congr 1
  split
  · rename_i hstage
    rw [hstage]
    -- the file of the last stage is the label file
    show s.buffers ++ [writeFile _ _ .lab _ _ .lab] = _
    rw [writeFile_self, stageText_last]
  · rfl

/-- A command that exits writes its file, and the next one reads it. -/
theorem Consistent.exitCommand (h : Consistent tools phrases s) (j : Nat) :
    Consistent tools phrases (exitCommand tools s j) := by
  by_cases hidle : ∀ job, s.jobs[j]? = some job → ¬ job.Running
  · rw [exitCommand_of_not_running hidle]
    exact h
  push Not at hidle
  obtain ⟨job, hjob, hrun⟩ := hidle
  obtain ⟨phrase, hphrase, heq⟩ := h.exitCommand_eq hjob hrun
  rw [heq]
  have hj : j < s.jobs.length := (List.getElem?_eq_some_iff.mp hjob).1
  -- the jobs of the new list: job `j` a stage further, the others as they were
  have hjobs : ∀ (i : Nat) (a : Job), (s.jobs.set j ⟨job.pre, job.stage + 1⟩)[i]? = some a →
      (i = j ∧ a = ⟨job.pre, job.stage + 1⟩) ∨ (i ≠ j ∧ s.jobs[i]? = some a) := by
    intro i a ha
    rw [List.getElem?_set] at ha
    split at ha
    · rename_i hij
      exact .inl ⟨hij.symm, (Option.some.inj ha).symm⟩
    · rename_i hij
      exact .inr ⟨Ne.symm hij, ha⟩
  refine ⟨?_, ?_, ?_, ?_, ?_⟩
  · -- the list of jobs is as long as it was
    simpa using h.started
  · -- stages: job `j` was running, so it had one to go
    intro i a ha
    rcases hjobs i a ha with ⟨-, rfl⟩ | ⟨-, ha'⟩
    · exact hrun
    · exact h.stage_le i a ha'
  · -- prefixes: job `j` keeps its own
    intro i k a b ha hb harun hbrun hpre
    rcases hjobs i a ha with ⟨rfl, rfl⟩ | ⟨hij, ha'⟩ <;>
    rcases hjobs k b hb with ⟨rfl, rfl⟩ | ⟨hkj, hb'⟩
    · rfl
    · exact h.distinct i k job b hjob hb' hrun hbrun hpre
    · exact h.distinct i k a job ha' hjob harun hrun hpre
    · exact h.distinct i k a b ha' hb' harun hbrun hpre
  · -- texts
    intro i a ha harun
    rcases hjobs i a ha with ⟨rfl, rfl⟩ | ⟨hij, ha'⟩
    · exact ⟨phrase, hphrase, writeFile_self⟩
    · -- the write went to the prefix of job `j`, which no other running job has
      obtain ⟨text, htext, hfile⟩ := h.text i a ha' harun
      refine ⟨text, htext, ?_⟩
      have hpre : a.pre ≠ job.pre := fun heq => hij (h.distinct i j a job ha' hjob harun hrun heq)
      show writeFile _ _ _ _ _ _ = _
      rw [writeFile_of_ne hpre]
      exact hfile
  · -- buffers: one more finished job exactly when this was its last command
    have hcount : (s.jobs.set j ⟨job.pre, job.stage + 1⟩).countP (fun job => job.stage = 4) =
        s.jobs.countP (fun job => job.stage = 4) + if job.stage = 3 then 1 else 0 := by
      have hget : s.jobs[j] = job := (List.getElem?_eq_some_iff.mp hjob).2
      have hrun' : job.stage ≠ 4 := Nat.ne_of_lt hrun
      rw [List.countP_set hj, hget]
      simp [hrun']
    show (if _ then _ else _ : List String).length = _
    rw [hcount, ← h.count]
    split <;> simp

/-- Every event keeps the jobs consistent. -/
theorem Consistent.step (h : Consistent tools phrases s) {e : LabelEvent}
    (hfresh : FreshPrefix s e) : Consistent tools phrases (labelStep tools phrases s e) := by
  cases e with
  | start pre => exact h.startJob hfresh
  | exit j => exact h.exitCommand j

-- ---------------------------------------------------------------------------
-- Buffers in the order of their phrases
-- ---------------------------------------------------------------------------

variable (tools phrases) in
/-- A job that is about to finish has the labels of the phrase whose number is
the next buffer's. -/
def InOrder (s : Labelling) (e : LabelEvent) : Prop :=
  ∀ j job, e = .exit j → s.jobs[j]? = some job → job.stage = 3 →
    phrases[j]?.map (labelsOf tools) = phrases[s.buffers.length]?.map (labelsOf tools)

/-- One element more is a prefix when it is the next one. -/
theorem append_singleton_prefix_iff {α : Type} {xs ys : List α} (h : xs <+: ys) (a : α) :
    xs ++ [a] <+: ys ↔ ys[xs.length]? = some a := by
  obtain ⟨zs, rfl⟩ := h
  rw [List.prefix_append_right_inj]
  rcases zs with _ | ⟨z, zs⟩
  · simp
  · simp [eq_comm]

/-- An event keeps the buffers in the order of the phrases exactly when it is
no exit out of order. -/
theorem buffers_step_iff (h : Consistent tools phrases s) {e : LabelEvent}
    (hbuffers : s.buffers <+: phrases.map (labelsOf tools)) :
    (labelStep tools phrases s e).buffers <+: phrases.map (labelsOf tools) ↔
      InOrder tools phrases s e := by
  cases e with
  | start pre =>
    -- a start hands over nothing
    have hsame : (labelStep tools phrases s (.start pre)).buffers = s.buffers := by
      show (startJob phrases s pre).buffers = _
      unfold startJob
      split <;> rfl
    rw [hsame]
    refine ⟨?_, fun _ => hbuffers⟩
    intro _ _ _ he
    cases he
  | exit j =>
    show (Engine.exitCommand tools s j).buffers <+: _ ↔ _
    -- nor does an exit that nobody waits for
    by_cases hidle : ∀ job, s.jobs[j]? = some job → ¬ job.Running
    · rw [exitCommand_of_not_running hidle]
      refine ⟨fun _ j' job he hjob hstage => ?_, fun _ => hbuffers⟩
      obtain rfl : j = j' := by simpa using he
      exact absurd (show job.stage < 4 by omega) (hidle job hjob)
    push Not at hidle
    obtain ⟨job, hjob, hrun⟩ := hidle
    obtain ⟨phrase, hphrase, heq⟩ := h.exitCommand_eq hjob hrun
    rw [heq]
    show (if job.stage = 3 then _ else _ : List String) <+: _ ↔ _
    -- the fourth command hands over the labels of the job's phrase
    have horder : InOrder tools phrases s (.exit j) ↔ (job.stage = 3 →
        some (labelsOf tools phrase) = phrases[s.buffers.length]?.map (labelsOf tools)) := by
      refine ⟨?_, ?_⟩
      · intro h hstage
        have := h j job rfl hjob hstage
        rwa [hphrase] at this
      · intro h j' job' he hjob' hstage
        obtain rfl : j = j' := by simpa using he
        obtain rfl := Option.some.inj (hjob.symm.trans hjob')
        rw [hphrase]
        exact h hstage
    rw [horder]
    split
    · rename_i hstage
      rw [append_singleton_prefix_iff hbuffers, List.getElem?_map]
      exact ⟨fun h _ => h.symm, fun h => (h hstage).symm⟩
    · rename_i hstage
      exact ⟨fun _ h => absurd h hstage, fun _ => hbuffers⟩

end Run

-- ---------------------------------------------------------------------------
-- Whole runs
-- ---------------------------------------------------------------------------

/-- The state after a list of events. -/
def labelRun (tools : Tools) (phrases : List String) (es : List LabelEvent) : Labelling :=
  es.foldl (labelStep tools phrases) Labelling.initial

/-- Every phrase has its job, and every job has finished. -/
def AllFinished (phrases : List String) (s : Labelling) : Prop :=
  s.jobs.length = phrases.length ∧ ∀ job ∈ s.jobs, job.stage = 4

section Runs

variable {tools : Tools} {phrases : List String}

/-- The jobs are consistent along a run with fresh prefixes. -/
theorem consistent_run {es : List LabelEvent}
    (hfresh : StepsMeet (labelStep tools phrases) FreshPrefix Labelling.initial es) :
    Consistent tools phrases (labelRun tools phrases es) :=
  foldl_invariant_of_meets (fun _ _ h hfresh => h.step hfresh) es _ consistent_initial hfresh

/-- In every state of a run without a clash, the buffers so far are those of the
first phrases exactly when no job has finished out of order. -/
theorem all_in_order_iff {es : List LabelEvent}
    (hfresh : StepsMeet (labelStep tools phrases) FreshPrefix Labelling.initial es) :
    StepsMeet (labelStep tools phrases) (InOrder tools phrases) Labelling.initial es ↔
      ∀ es', es' <+: es → (labelRun tools phrases es').buffers <+: phrases.map (labelsOf tools) :=
  stepsMeet_iff_all_states_of_meets
    (I := fun s : Labelling => s.buffers <+: phrases.map (labelsOf tools))
    (fun _ _ h hfresh => h.step hfresh) (fun _ _ h _ hbuffers => buffers_step_iff h hbuffers)
    es Labelling.initial consistent_initial List.nil_prefix hfresh

/-- Buffers are never freed or rewritten. -/
theorem buffers_prefix_step (s : Labelling) (e : LabelEvent) :
    s.buffers <+: (labelStep tools phrases s e).buffers := by
  cases e with
  | start pre =>
    show s.buffers <+: (startJob phrases s pre).buffers
    unfold startJob
    split <;> exact List.prefix_rfl
  | exit j =>
    show s.buffers <+: (exitCommand tools s j).buffers
    unfold exitCommand
    split
    · exact List.prefix_rfl
    split
    · exact List.prefix_rfl
    · show s.buffers <+: (if _ then _ else _ : List String)
      split
      · exact List.prefix_append _ _
      · exact List.prefix_rfl

/-- Buffers that were handed over stay. -/
theorem buffers_prefix_run {es es' : List LabelEvent} (h : es' <+: es) :
    (labelRun tools phrases es').buffers <+: (labelRun tools phrases es).buffers := by
  obtain ⟨rest, rfl⟩ := h
  rw [labelRun, labelRun, List.foldl_append]
  generalize es'.foldl (labelStep tools phrases) Labelling.initial = s
  exact foldl_invariant (I := fun t : Labelling => s.buffers <+: t.buffers)
    (fun t e ht => ht.trans (buffers_prefix_step t e)) rest s List.prefix_rfl

/-- One buffer for each phrase, at the end. -/
theorem length_buffers_of_finished {s : Labelling} (h : Consistent tools phrases s)
    (hdone : AllFinished phrases s) : s.buffers.length = phrases.length := by
  have hall : s.jobs.countP (fun job => job.stage = 4) = s.jobs.length := by
    rw [List.countP_eq_length]
    simpa using hdone.2
  rw [h.count, hall, hdone.1]

/--
**Each phrase has its own buffer**, up to the order of completion: in a run that
finishes all jobs and never gives two running jobs one prefix, buffer `k` holds
the labels of phrase `k`, for every `k`, exactly when each job that finished did
so as the job of the phrase whose number the next buffer had (or of one with the
same labels). -/
theorem buffers_in_order_iff (tools : Tools) (phrases : List String) (es : List LabelEvent)
    (hfresh : StepsMeet (labelStep tools phrases) FreshPrefix Labelling.initial es)
    (hdone : AllFinished phrases (labelRun tools phrases es)) :
    (labelRun tools phrases es).buffers = phrases.map (labelsOf tools) ↔
      StepsMeet (labelStep tools phrases) (InOrder tools phrases) Labelling.initial es := by
  rw [all_in_order_iff hfresh]
  have hlength := length_buffers_of_finished (consistent_run hfresh) hdone
  refine ⟨?_, ?_⟩
  · intro heq es' hpre
    rw [← heq]
    exact buffers_prefix_run hpre
  · intro hall
    exact (hall es List.prefix_rfl).eq_of_length (by rw [hlength, List.length_map])

/-- For the engine's own phrases, jobs that finish in order give every variant of
the SynthDef the labels of its phrase. -/
theorem variant_plays_phrase (tools : Tools) (es : List LabelEvent)
    (hfresh : StepsMeet (labelStep tools (voxPhrases.map Phrase.text)) FreshPrefix
      Labelling.initial es)
    (hdone : AllFinished (voxPhrases.map Phrase.text)
      (labelRun tools (voxPhrases.map Phrase.text) es))
    (horder : StepsMeet (labelStep tools (voxPhrases.map Phrase.text))
      (InOrder tools (voxPhrases.map Phrase.text)) Labelling.initial es) (p : Phrase) :
    (labelRun tools (voxPhrases.map Phrase.text) es).buffers[p.buf]? =
      some (labelsOf tools p.text) := by
  have hlength := length_buffers_of_finished (consistent_run hfresh) hdone
  have hall := (all_in_order_iff hfresh).mp horder es List.prefix_rfl
  have heq : (labelRun tools (voxPhrases.map Phrase.text) es).buffers =
      (voxPhrases.map Phrase.text).map (labelsOf tools) :=
    hall.eq_of_length (by rw [hlength, List.length_map (labelsOf tools)])
  rw [heq]
  simp [voxPhrases_buf]

/-- The tools as the identity. -/
def Tools.copying : Tools := ⟨id, id, id, id⟩

/-- Two jobs that overlap and finish in order. -/
theorem buffers_in_order_iff_two_jobs :
    (labelRun .copying ["zero", "one"]
        [.start "a", .exit 0, .start "b", .exit 1, .exit 0, .exit 0, .exit 0, .exit 1, .exit 1,
          .exit 1]).buffers = ["zero", "one"].map (labelsOf .copying) ↔
      StepsMeet (labelStep .copying ["zero", "one"]) (InOrder .copying ["zero", "one"])
        Labelling.initial
        [.start "a", .exit 0, .start "b", .exit 1, .exit 0, .exit 0, .exit 0, .exit 1, .exit 1,
          .exit 1] := by
  refine buffers_in_order_iff .copying ["zero", "one"] _ ?_ ?_
  · simp [StepsMeet, FreshPrefix, labelStep, startJob, exitCommand, pipeline, Labelling.initial]
  · unfold AllFinished
    decide +kernel

/-- Two jobs of which the second is faster. -/
def secondJobFirst : List LabelEvent :=
  [.start "a", .start "b", .exit 1, .exit 1, .exit 1, .exit 1, .exit 0, .exit 0, .exit 0, .exit 0]

theorem second_job_takes_first_buffer :
    AllFinished ["zero", "one"] (labelRun .copying ["zero", "one"] secondJobFirst) ∧
      (labelRun .copying ["zero", "one"] secondJobFirst).buffers ≠
        ["zero", "one"].map (labelsOf .copying) := by
  unfold AllFinished
  decide +kernel

end Runs

end Vox.Engine
