import Vox.Script.Validity

/-!
# Script — screen and engine agree

For each parameter the script keeps a variable, which the screen shows, and
sends values, of which the engine holds the last. A handler that assigns both
keeps them equal. Two statements write one side only: `/netvoltage` sends a
voice without assigning `voice`, where `/hexvoltage` uses the setter; and K3 on
`scale`, above the maximum, assigns nil, which no command sends.

Main results:

* `step_agreed_iff` — an event keeps the agreement exactly when it is neither.
* `run_agrees_iff` — along a run, every parameter that was changed is shown as
  it was last sent exactly when no event is one of the two.
-/

namespace Vox.Script

open Lib

/-! ## Agreement -/

/-- A parameter is as it was loaded and was never sent, or it is shown as it
was last sent. -/
def Agrees (w : World) (p : Param) : Prop :=
  (w.sent p = none ∧ w.var p = World.initial.var p) ∨ ∃ x, w.sent p = some x ∧ w.var p = some x

/-- The parameters that have an engine command of their name. -/
def Param.HasCommand (p : Param) : Prop := p ≠ .mute ∧ p ≠ .phrase

def Agreed (w : World) : Prop := ∀ p : Param, p.HasCommand → Agrees w p

/-- The effects that leave a parameter's variable and its sent value. -/
def Effect.Leaves (p : Param) : Effect → Prop
  | .assign q _ => p ≠ q
  | .sendVoice _ => p ≠ .voice
  | .loseScale => p ≠ .scale
  | .edit _ | .heard | .drawn => True

/-- An assignment leaves the other parameters. -/
theorem Effect.leaves_assign {p q : Param} {x : ℚ} (h : p ≠ q) : (Effect.assign q x).Leaves p := h

/-- The effects that write both sides or none. -/
def Effect.Plain : Effect → Prop
  | .sendVoice _ | .loseScale => False
  | .assign _ _ | .edit _ | .heard | .drawn => True

variable {w : World} {p : Param}

theorem var_perform_of_leaves {f : Effect} (h : f.Leaves p) : (perform w f).var p = w.var p := by
  cases f with
  | assign q x => exact var_assign_of_ne h
  | loseScale => cases p <;> first | rfl | exact absurd rfl h
  | drawn => exact var_drawn
  | _ => cases p <;> rfl

theorem sent_perform_of_leaves {f : Effect} (h : f.Leaves p) :
    (perform w f).sent p = w.sent p := by
  cases f with
  | assign q x => exact sent_assign_of_ne h
  | sendVoice x =>
    have hparam : ¬ (some Param.voice = some p) := fun heq => h (Option.some.inj heq).symm
    simp [perform, World.sent, lastSent, Message.param, hparam]
  | drawn => exact congrArg (lastSent p) log_drawn
  | _ => rfl

theorem Agrees.of_leaves (h : Agrees w p) {f : Effect} (hf : f.Leaves p) :
    Agrees (perform w f) p := by
  rw [Agrees, var_perform_of_leaves hf, sent_perform_of_leaves hf]
  exact h

theorem foldl_perform_of_leaves {fs : List Effect} (h : ∀ f ∈ fs, f.Leaves p) :
    (fs.foldl perform w).var p = w.var p ∧ (fs.foldl perform w).sent p = w.sent p := by
  induction fs generalizing w with
  | nil => exact ⟨rfl, rfl⟩
  | cons f fs ih =>
    rw [List.forall_mem_cons] at h
    obtain ⟨hvar, hsent⟩ := ih (w := perform w f) h.2
    exact ⟨hvar.trans (var_perform_of_leaves h.1), hsent.trans (sent_perform_of_leaves h.1)⟩

/-- A parameter with a command has a message for each value. -/
theorem message_isSome (h : p.HasCommand) (x : ℚ) : (p.message x).isSome := by
  cases p <;> first | rfl | exact absurd rfl h.2

/-- An assignment makes its parameter agree. -/
theorem agrees_assign (h : p.HasCommand) (x : ℚ) : Agrees (w.assign p x) p :=
  .inr ⟨x, sent_assign_self (message_isSome h x), var_assign_self⟩

/-- A plain effect keeps variables and engine in agreement. -/
theorem perform_agreed (hw : Agreed w) {f : Effect} (hf : f.Plain) : Agreed (perform w f) := by
  intro p hp
  cases f with
  | assign q x =>
    by_cases hq : p = q
    · -- the assigned parameter agrees anew
      subst hq
      exact agrees_assign hp x
    · exact (hw p hp).of_leaves (f := .assign q x) hq
  | sendVoice | loseScale => exact hf.elim
  | edit x => exact (hw p hp).of_leaves (f := .edit x) trivial
  | heard => exact (hw p hp).of_leaves (f := .heard) trivial
  | drawn => exact (hw p hp).of_leaves (f := .drawn) trivial

theorem foldl_perform_agreed (hw : Agreed w) {fs : List Effect} (h : ∀ f ∈ fs, f.Plain) :
    Agreed (fs.foldl perform w) := by
  have hperform : ∀ w f, Agreed w → f.Plain → Agreed (perform w f) :=
    fun w f hw hf => perform_agreed hw hf
  exact foldl_invariant_of_forall hperform fs w hw h

/-- A voice sent by itself agrees when it is the one shown. -/
theorem sendVoice_agrees_iff (x : ℚ) :
    Agrees (perform w (.sendVoice x)) .voice ↔ x = w.voice := by
  have hsent : (perform w (.sendVoice x)).sent .voice = some x := rfl
  have hvar : (perform w (.sendVoice x)).var .voice = some w.voice := rfl
  simp only [Agrees, hsent, hvar]
  refine ⟨?_, ?_⟩
  · rintro (⟨h, -⟩ | ⟨y, hx, hv⟩)
    · -- a voice was sent
      cases h
    · exact (Option.some.inj hx).trans (Option.some.inj hv).symm
  · rintro rfl
    exact .inr ⟨_, rfl, rfl⟩

/-! ## Events -/

/-- A `/netvoltage` whose voice is not the one shown. -/
def SendsOtherVoice (w : World) (e : Event) : Prop :=
  ∃ args x, e = .osc "/netvoltage" args ∧ arg args 2 = some x ∧ x ≠ w.voice

section Steps

variable {norns : Norns}

/-- Apart from the two exceptions all effects are plain. -/
theorem effects_plain {e : Event} (hscale : ¬ ScaleWraps w e)
    (hnet : ∀ args x, e = .osc "/netvoltage" args → arg args 2 ≠ some x) :
    ∀ f ∈ effects norns w e, f.Plain := by
  apply effects_forall
  case hassign =>
    intro _ _
    trivial
  case hheard | hdrawn | hmute | hedit | hnext => trivial
  case hvoice =>
    intro args x he hx
    exact hnet args x he hx
  case hkey =>
    rintro rfl
    exact keyEffects_forall (fun _ _ => trivial) trivial
      fun hedit scale hvar hgt => hscale ⟨rfl, hedit, scale, hvar, hgt⟩

/-- The arguments behind the voice have plain effects. -/
theorem netTail_plain (args : List ℚ) : ∀ f ∈ netTail norns args, f.Plain :=
  netTail_forall (fun _ => trivial) (fun _ => trivial) (fun _ => trivial) trivial trivial args

theorem netTail_leaves_voice (norns : Norns) (args : List ℚ) :
    ∀ f ∈ netTail norns args, f.Leaves .voice :=
  netTail_forall (fun _ => Effect.leaves_assign (by decide))
    (fun _ => Effect.leaves_assign (by decide)) (fun _ => Effect.leaves_assign (by decide))
    trivial trivial args

/-- `/netvoltage` with a voice: the rest of it neither repairs nor breaks. -/
theorem net_agreed_iff (hw : Agreed w) {args : List ℚ} {x : ℚ} (hx : arg args 2 = some x) :
    Agreed ((netEffects norns args).foldl perform w) ↔ x = w.voice := by
  rw [netEffects, hx, Option.map_some, Option.toList_some, List.singleton_append, List.foldl_cons]
  refine ⟨?_, ?_⟩
  · -- what is sent after the voice writes neither side of it
    intro h
    have hvoice := h .voice ⟨by decide, by decide⟩
    obtain ⟨hvar, hsent⟩ := foldl_perform_of_leaves (w := perform w (.sendVoice x))
      (netTail_leaves_voice norns args)
    rw [Agrees, hvar, hsent] at hvoice
    exact (sendVoice_agrees_iff x).mp hvoice
  · intro hxv
    apply foldl_perform_agreed _ (netTail_plain args)
    intro p hp
    by_cases hpv : p = .voice
    · rw [hpv]
      exact (sendVoice_agrees_iff x).mpr hxv
    · exact (hw p hp).of_leaves (f := .sendVoice x) hpv

/-- A lost scale is not what the engine has. -/
theorem not_agreed_of_scaleWraps {e : Event} (h : ScaleWraps w e) :
    ¬ Agreed ((effects norns w e).foldl perform w) := by
  intro hagreed
  have hvar : ((effects norns w e).foldl perform w).var .scale = none := by
    rw [effects_of_scaleWraps h]
    exact var_drawn
  rcases hagreed .scale ⟨by decide, by decide⟩ with ⟨-, hinit⟩ | ⟨x, -, hx⟩
  · rw [hvar] at hinit
    cases hinit
  · rw [hvar] at hx
    cases hx

/-- **An event keeps the agreement** exactly when it neither sends a voice that
is not shown nor loses the scale. -/
theorem step_agreed_iff (hw : Agreed w) (e : Event) :
    Agreed (step norns w e) ↔ ¬ ScaleWraps w e ∧ ¬ SendsOtherVoice w e := by
  rw [step_eq_effects]
  by_cases hnet : ∃ args x, e = .osc "/netvoltage" args ∧ arg args 2 = some x
  · obtain ⟨args, x, rfl, hx⟩ := hnet
    -- no press of a key
    have hscale : ¬ ScaleWraps w (.osc "/netvoltage" args) := fun h => absurd h.1 (by simp)
    have hother : SendsOtherVoice w (.osc "/netvoltage" args) ↔ x ≠ w.voice := by
      refine ⟨?_, ?_⟩
      · rintro ⟨args', x', heq, hx', hne⟩
        obtain rfl : args = args' := by simpa using heq
        rwa [Option.some.inj (hx.symm.trans hx')]
      · exact fun hne => ⟨args, x, rfl, hx, hne⟩
    rw [hother, not_not, and_iff_right hscale]
    exact net_agreed_iff hw hx
  · -- every other effect writes both sides, or none
    have hother : ¬ SendsOtherVoice w e := fun ⟨args, x, he, hx, _⟩ => hnet ⟨args, x, he, hx⟩
    rw [and_iff_left hother]
    refine ⟨?_, ?_⟩
    · intro hagreed hscale
      exact not_agreed_of_scaleWraps hscale hagreed
    · intro hscale
      apply foldl_perform_agreed hw
      apply effects_plain hscale
      intro args x he hx
      exact hnet ⟨args, x, he, hx⟩

end Steps

/-! ## Runs -/

/-- At the start nothing was sent and nothing changed. -/
theorem initial_agreed : Agreed World.initial := fun _ _ => .inl ⟨rfl, rfl⟩

/-- Some event of the run changes the variable of a parameter or the value last
sent for it. -/
def Changed (norns : Norns) (es : List Event) (p : Param) : Prop :=
  ∃ es₁ e, es₁ ++ [e] <+: es ∧
    ((run norns (es₁ ++ [e])).var p ≠ (run norns es₁).var p ∨
      (run norns (es₁ ++ [e])).sent p ≠ (run norns es₁).sent p)

section Runs

variable {norns : Norns}

theorem run_concat (es : List Event) (e : Event) :
    run norns (es ++ [e]) = step norns (run norns es) e := by
  simp [run]

/-- A parameter that nothing has changed is as it was loaded. -/
theorem eq_initial_of_not_changed {es : List Event} (h : ¬ Changed norns es p) :
    (run norns es).var p = World.initial.var p ∧ (run norns es).sent p = none := by
  induction es using List.reverseRecOn with
  | nil => exact ⟨rfl, rfl⟩
  | append_singleton es e ih =>
    have hsame : (run norns (es ++ [e])).var p = (run norns es).var p ∧
        (run norns (es ++ [e])).sent p = (run norns es).sent p := by
      by_contra hne
      rw [not_and_or] at hne
      exact h ⟨es, e, List.prefix_rfl, hne⟩
    have hshort : ¬ Changed norns es p := by
      rintro ⟨es₁, e', hpre, hne⟩
      exact h ⟨es₁, e', hpre.trans (List.prefix_append es [e]), hne⟩
    obtain ⟨hvar, hsent⟩ := ih hshort
    exact ⟨hsame.1.trans hvar, hsame.2.trans hsent⟩

/-- The log only grows. -/
theorem log_suffix_perform (w : World) (f : Effect) : w.log <:+ (perform w f).log := by
  cases f with
  | assign q x => exact List.suffix_append _ _
  | sendVoice x => exact List.suffix_cons _ _
  | drawn => rw [perform, log_drawn]
  | _ => exact List.suffix_rfl

theorem log_suffix_run (es es' : List Event) :
    (run norns es).log <:+ (run norns (es ++ es')).log := by
  induction es' using List.reverseRecOn with
  | nil => simp
  | append_singleton es' e ih =>
    rw [← List.append_assoc, run_concat, step_eq_effects]
    have hgrow : ∀ (v : World) (f : Effect), (run norns es).log <:+ v.log →
        (run norns es).log <:+ (perform v f).log :=
      fun v f hv => hv.trans (log_suffix_perform v f)
    exact foldl_invariant (I := fun v : World => (run norns es).log <:+ v.log) hgrow _ _ ih

/-- What was never sent was not sent before either. -/
theorem lastSent_eq_none_of_suffix {log log' : List Message} (h : log <:+ log')
    (hnone : lastSent p log' = none) : lastSent p log = none := by
  simp only [lastSent, Option.map_eq_none_iff, List.find?_eq_none] at hnone ⊢
  exact fun m hm => hnone m (h.mem hm)

/-- Agreement in every state of a run makes each changed parameter shown as it
was last sent. -/
theorem eq_sent_of_changed {es : List Event} (hagreed : ∀ es', es' <+: es → Agreed (run norns es'))
    (hp : p.HasCommand) (hchanged : Changed norns es p) :
    ∃ x, (run norns es).sent p = some x ∧ (run norns es).var p = some x := by
  rcases hagreed es List.prefix_rfl p hp with ⟨hsent, -⟩ | h
  · -- never sent, so as loaded in every state before
    have hloaded : ∀ es', es' <+: es →
        (run norns es').sent p = none ∧ (run norns es').var p = World.initial.var p := by
      intro es' hpre
      obtain ⟨rest, rfl⟩ := id hpre
      have hnone : (run norns es').sent p = none :=
        lastSent_eq_none_of_suffix (log_suffix_run es' rest) hsent
      rcases hagreed es' hpre p hp with h | ⟨x, hx, -⟩
      · exact h
      · rw [hnone] at hx
        cases hx
    -- so the change it was is none
    obtain ⟨es₁, e, hpre, hne⟩ := hchanged
    obtain ⟨hsent₂, hvar₂⟩ := hloaded _ hpre
    obtain ⟨hsent₁, hvar₁⟩ := hloaded es₁ ((List.prefix_append es₁ [e]).trans hpre)
    rw [hsent₂, hvar₂, hsent₁, hvar₁] at hne
    simp at hne
  · exact h

end Runs

/--
**Screen and engine agree, up to two slips.** Along a run, in every state
reached, each of voice, mode, freq, scale, alpha and gap that an event has
changed is shown as it was last sent, exactly when no event sends a voice
without showing it and none loses the scale. -/
theorem run_agrees_iff (norns : Norns) (es : List Event) :
    (∀ es', es' <+: es → ∀ p : Param, p.HasCommand → Changed norns es' p →
        ∃ x, (run norns es').sent p = some x ∧ (run norns es').var p = some x) ↔
      StepsMeet (step norns) (fun w e => ¬ ScaleWraps w e ∧ ¬ SendsOtherVoice w e)
        World.initial es := by
  have hstep : ∀ w e, Agreed w →
      (Agreed (step norns w e) ↔ ¬ ScaleWraps w e ∧ ¬ SendsOtherVoice w e) :=
    fun w e hw => step_agreed_iff hw e
  rw [stepsMeet_iff_all_states hstep initial_agreed]
  refine ⟨?_, ?_⟩
  · intro h es' hpre p hp
    by_cases hchanged : Changed norns es' p
    · exact .inr (h es' hpre p hp hchanged)
    · -- untouched, it is as loaded
      exact .inl (eq_initial_of_not_changed hchanged).symm
  · intro h es' hpre p hp hchanged
    exact eq_sent_of_changed (fun es'' hpre' => h es'' (hpre'.trans hpre)) hp hchanged

/-- A `/netvoltage` for voice 2, to a script that shows voice 5. -/
def netvoltageForVoice2 : List Event :=
  [.osc "/netvoltage" [1701484416, 2, 9001, 45152, 4480, 4428]]

theorem netvoltage_voice_disagrees :
    ¬ (∀ p : Param, p.HasCommand → Changed .chord netvoltageForVoice2 p →
        ∃ x, (run .chord netvoltageForVoice2).sent p = some x ∧
          (run .chord netvoltageForVoice2).var p = some x) := by
  intro h
  have hsent : (run .chord netvoltageForVoice2).sent .voice = some 2 := by decide +kernel
  have hvar : (run .chord netvoltageForVoice2).var .voice = some 5 := by decide +kernel
  have hchanged : Changed .chord netvoltageForVoice2 .voice := by
    refine ⟨[], _, List.prefix_rfl, .inr ?_⟩
    rw [List.nil_append, ← netvoltageForVoice2, hsent]
    exact Option.some_ne_none _
  obtain ⟨x, hx, hv⟩ := h .voice ⟨by decide, by decide⟩ hchanged
  rw [hsent] at hx
  rw [hvar, ← hx] at hv
  exact absurd (Option.some.inj hv) (by norm_num)

end Vox.Script
