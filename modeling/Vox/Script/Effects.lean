import Vox.Lib.Run
import Vox.Script.Handlers

/-!
# Script — what an event does

The abstract view of the script: a panel of parameters, each with a variable
and the value last sent for it, an edit position and a sign of OSC traffic. A
handler is a short list of effects on the panel. `effects` names them event by
event, and `step_eq_effects` says that the handlers do exactly that; every
invariant of the script is proved from it.

Two of the effects are not edits of the panel: `/netvoltage` sends a voice that
no variable holds, and K3 loses the scale at the end of its range.
-/

namespace Vox.Script

open Lib Vox.Engine

/-! ## The panel -/

/-- The variable of a parameter, none when it is nil. -/
def World.var (w : World) : Param → Option ℚ
  | .mute => some w.mute
  | .voice => some w.voice
  | .phrase => some w.phrase
  | .freq => some w.freq
  | .mode => some w.mode
  | .scale => w.scale
  | .alpha => some w.alpha
  | .gap => some w.gap

/-- The parameter that a message sets. The script silences the output by its
level, and never sends the engine's own `mute`. -/
def Message.param : Message → Option Param
  | .levelDac _ => some .mute
  | .engine .voice _ => some .voice
  | .engine (.phrase _) _ => some .phrase
  | .engine .mode _ => some .mode
  | .engine .freq _ => some .freq
  | .engine .scale _ => some .scale
  | .engine .alpha _ => some .alpha
  | .engine .gap _ => some .gap
  | .engine .mute _ => none

def Message.value : Message → ℚ
  | .levelDac x => x
  | .engine _ x => x

/-- The latest value in the log for a parameter. -/
def lastSent (p : Param) (log : List Message) : Option ℚ :=
  (log.find? fun m => m.param = some p).map Message.value

/-- The value last sent for a parameter, none before the first. -/
def World.sent (w : World) (p : Param) : Option ℚ := lastSent p w.log

/-- The message of a parameter at a value; for `phrase`, the command of that
phrase. -/
def Param.message : Param → ℚ → Option Message
  | .mute, x => some (.levelDac x)
  | .voice, x => some (.engine .voice x)
  | .phrase, x => (luaIndex voxPhrases (x + 1)).map fun p => .engine (.phrase p) x
  | .freq, x => some (.engine .freq x)
  | .mode, x => some (.engine .mode x)
  | .scale, x => some (.engine .scale x)
  | .alpha, x => some (.engine .alpha x)
  | .gap, x => some (.engine .gap x)

def World.put (w : World) : Param → ℚ → World
  | .mute, x => { w with mute := x }
  | .voice, x => { w with voice := x }
  | .phrase, x => { w with phrase := x }
  | .freq, x => { w with freq := x }
  | .mode, x => { w with mode := x }
  | .scale, x => { w with scale := some x }
  | .alpha, x => { w with alpha := x }
  | .gap, x => { w with gap := x }

/-- The variable and the engine, both at `x`. -/
def World.assign (w : World) (p : Param) (x : ℚ) : World :=
  { w.put p x with log := (p.message x).toList ++ w.log }

/-! ### Reading the panel after a write -/

section Panel

variable {p q : Param} {x : ℚ} {w : World}

/-- The message of a parameter says which one it is and its value. -/
theorem message_eq_some {m : Message} (h : p.message x = some m) :
    m.param = some p ∧ m.value = x := by
  cases p
  case phrase =>
    obtain ⟨ph, -, rfl⟩ := Option.map_eq_some_iff.mp h
    exact ⟨rfl, rfl⟩
  all_goals
    obtain rfl := Option.some.inj h
    exact ⟨rfl, rfl⟩

@[simp] theorem var_assign_self : (w.assign p x).var p = some x := by
  cases p <;> rfl

/-- Assigning one parameter leaves the other variables alone. -/
theorem var_assign_of_ne (h : q ≠ p) : (w.assign p x).var q = w.var q := by
  cases p <;> cases q <;> first | rfl | exact absurd rfl h

@[simp] theorem edit_assign : (w.assign p x).edit = w.edit := by
  cases p <;> rfl

@[simp] theorem rxOsc_assign : (w.assign p x).rxOsc = w.rxOsc := by
  cases p <;> rfl

/-- What is assigned is also sent, where there is a command for it. -/
theorem sent_assign_self (h : (p.message x).isSome) : (w.assign p x).sent p = some x := by
  obtain ⟨m, hm⟩ := Option.isSome_iff_exists.mp h
  obtain ⟨hparam, hvalue⟩ := message_eq_some hm
  simp [World.sent, World.assign, lastSent, hm, hparam, hvalue]

/-- Nothing is sent about the other parameters. -/
theorem sent_assign_of_ne (h : q ≠ p) : (w.assign p x).sent q = w.sent q := by
  rcases hm : p.message x with _ | m
  · simp [World.sent, World.assign, lastSent, hm]
  · -- the new message is of another parameter
    have hparam : m.param ≠ some q := by
      rw [(message_eq_some hm).1]
      exact fun heq => h (Option.some.inj heq).symm
    simp [World.sent, World.assign, lastSent, hm, hparam]

@[simp] theorem var_drawn : w.drawn.var p = w.var p := by
  unfold World.drawn
  split
  · cases p <;> rfl
  · rfl

@[simp] theorem log_drawn : w.drawn.log = w.log := by
  unfold World.drawn
  split <;> rfl

@[simp] theorem edit_drawn : w.drawn.edit = w.edit := by
  unfold World.drawn
  split <;> rfl

end Panel

inductive Effect
  | assign (p : Param) (x : ℚ)
  | edit (x : ℚ)
  | heard
  | drawn
  | sendVoice (x : ℚ)
  | loseScale

def perform (w : World) : Effect → World
  | .assign p x => w.assign p x
  | .edit x => { w with edit := x }
  | .heard => { w with rxOsc := 1 }
  | .drawn => w.drawn
  | .sendVoice x => { w with log := .engine .voice x :: w.log }
  | .loseScale => { w with scale := none }

/-! ## The effects of each event -/

def toggled (mute : ℚ) : ℚ := if mute = 1 then 0 else 1

/-- One step up, back to `lo` above `hi`. -/
def stepUp (x increment hi lo : ℚ) : ℚ := if x + increment > hi then lo else x + increment

/-- The effects of K3. -/
def keyEffects (w : World) : List Effect :=
  if w.edit = 0 then [.assign .mute (toggled w.mute), .drawn]
  else if w.edit = 1 then [.assign .voice (stepUp w.voice 1 5 0), .drawn]
  else if w.edit = 3 then [.assign .mode (stepUp w.mode 1 2 (-1)), .drawn]
  else if w.edit = 4 then [.assign .freq (stepUp w.freq 1 freqMax 1), .drawn]
  else if w.edit = 5 then
    match w.scale with
    -- nil + 0.1 raises an error
    | none => []
    | some scale =>
      -- `scale = voxmin`, of a name that is nowhere declared
      if scale + 1 / 10 > scaleMax then [.loseScale, .drawn]
      else [.assign .scale (scale + 1 / 10), .drawn]
  else if w.edit = 6 then [.assign .alpha (stepUp w.alpha (1 / 100) alphaMax voxMin), .drawn]
  else if w.edit = 7 then [.assign .gap (stepUp w.gap 1 gapMax voxMin), .drawn]
  else [.drawn]

section Effects

variable (norns : Norns)

/-- The effect of a parameter's action. -/
def actionEffect (w : World) (p : Param) (x : ℚ) : Effect :=
  if p = .mute ∨ p = .voice then .assign .mute (toggled w.mute)
  else .assign p (p.spec.map norns x)

def encEffects (w : World) (n : Int) (value : Option ℚ) : List Effect :=
  if n = 3 then
    match editedParam w.edit, value with
    | some p, some x => [actionEffect norns w p x, .drawn]
    | some _, none => [.drawn]
    | none, _ => [.edit 0, .drawn]
  else if n = 2 then [.edit (if w.edit + 1 = 8 then 0 else w.edit + 1), .drawn]
  else [.drawn]

/-- A voltage sets the parameter of the edit position. -/
def voltEffects (p : Option Param) (volt : ℚ) : List Effect :=
  match p with
  | some p => [.assign p (p.spec.map norns volt), .drawn]
  | none => [.drawn]

def cvParam (edit : ℚ) : Option Param :=
  if edit = 5 then some .scale else if edit = 6 then some .alpha
  else if edit = 7 then some .gap else none

def triggerParam (edit : ℚ) : Option Param :=
  if edit = 1 then some .voice else if edit = 2 then some .phrase
  else if edit = 3 then some .mode else if edit = 4 then some .freq else none

/-- The effects of `/netvoltage` after its voice: what comes before the first
missing argument. -/
def netTail (args : List ℚ) : List Effect :=
  match arg args 3 with
  | none => []
  | some a3 =>
    .assign .freq (csFreq.map norns (a3 / (33 / 10))) ::
      match arg args 4 with
      | none => []
      | some a4 =>
        .assign .scale (csScale.map norns (a4 / 10000)) ::
          match arg args 6, arg args 5 with
          | some a6, some a5 =>
            [.assign .gap (csGap.map norns ((a6 - a5) / 100)), .heard, .drawn]
          | _, _ => []

def netEffects (args : List ℚ) : List Effect :=
  ((arg args 2).map Effect.sendVoice).toList ++ netTail norns args

def hexEffects (args : List ℚ) : List Effect :=
  match arg args 1 with
  | none => []
  | some a1 =>
    .assign .phrase (csPhrase.map norns a1) ::
      match arg args 2 with
      | none => []
      | some a2 =>
        .assign .alpha (csAlpha.map norns a2) ::
          match arg args 3 with
          | none => []
          | some a3 => [.assign .voice (csVoice.map norns a3), .heard, .drawn]

def oscEffects (w : World) (path : String) (args : List ℚ) : List Effect :=
  if path = "/netvoltage" then netEffects norns args
  else if path = "/hexvoltage" then hexEffects norns args
  else if path = "/voxvoltage" then [.assign .mute (toggled w.mute), .heard, .drawn]
  else [.heard, .drawn]

def effects (w : World) : Event → List Effect
  | .key n z => if n = 3 ∧ z = 1 then keyEffects w else []
  | .enc n value => encEffects norns w n value
  | .param p x => [actionEffect norns w p x]
  | .cv v => voltEffects norns (cvParam w.edit) (v / 10)
  | .trigger v => voltEffects norns (triggerParam w.edit) (v / 5)
  | .osc path args => oscEffects norns w path args

/-! ## The handlers have these effects -/

/-- `set_mute` toggles and does not look at its argument. -/
theorem setMute_apply (w : World) :
    setMute w = (some ⟨⟩, w.assign .mute (toggled w.mute)) := rfl

/-- `set_voice` assigns the mapped value. -/
theorem setVoice_apply (cs : Controlspec) (x : ℚ) (w : World) :
    setVoice norns cs x w = (some ⟨⟩, w.assign .voice (cs.map norns x)) := rfl

/-- `set_mode` assigns the mapped value. -/
theorem setMode_apply (cs : Controlspec) (x : ℚ) (w : World) :
    setMode norns cs x w = (some ⟨⟩, w.assign .mode (cs.map norns x)) := rfl

/-- `set_phrase` assigns the mapped value, and sends it where the phrase has a name. -/
theorem setPhrase_apply (cs : Controlspec) (x : ℚ) (w : World) :
    setPhrase norns cs x w = (some ⟨⟩, w.assign .phrase (cs.map norns x)) := by
  cases h : luaIndex voxPhrases (cs.map norns x + 1) <;>
    simp [setPhrase, engine, World.assign, World.put, Param.message, h]

/-- `set_freq` assigns the mapped value. -/
theorem setFreq_apply (cs : Controlspec) (x : ℚ) (w : World) :
    setFreq norns cs x w = (some ⟨⟩, w.assign .freq (cs.map norns x)) := rfl

/-- `set_scale` assigns the mapped value. -/
theorem setScale_apply (cs : Controlspec) (x : ℚ) (w : World) :
    setScale norns cs x w = (some ⟨⟩, w.assign .scale (cs.map norns x)) := rfl

/-- `set_alpha` assigns the mapped value. -/
theorem setAlpha_apply (cs : Controlspec) (x : ℚ) (w : World) :
    setAlpha norns cs x w = (some ⟨⟩, w.assign .alpha (cs.map norns x)) := rfl

/-- `set_gap` assigns the mapped value. -/
theorem setGap_apply (cs : Controlspec) (x : ℚ) (w : World) :
    setGap norns cs x w = (some ⟨⟩, w.assign .gap (cs.map norns x)) := rfl

/-- The action of a parameter is one effect. -/
theorem action_apply (p : Param) (x : ℚ) (w : World) :
    action norns p x w = (some ⟨⟩, perform w (actionEffect norns w p x)) := by
  cases p
  case phrase => exact setPhrase_apply norns csPhrase x w
  all_goals rfl

/-- A handler's last statement. -/
theorem redraw_exec' (w : World) : (redraw >>= fun _ => pure PUnit.unit).exec w = w.drawn := by
  rw [Cmd.exec_bind_pure, redraw_exec]

/-- A setter and the redraw after it. -/
theorem exec_redraw {c : Cmd World PUnit} {w w' : World} (h : c w = (some ⟨⟩, w')) :
    (c >>= fun _ => redraw >>= fun _ => pure PUnit.unit).exec w = w'.drawn := by
  rw [Cmd.exec_bind_of_eq h, redraw_exec']

theorem key_exec (n z : Int) (w : World) :
    (key n z).exec w = (effects norns w (.key n z)).foldl perform w := by
  by_cases hk : n = 3 ∧ z = 1
  · -- the edit positions in the order of the handler; 2 has no branch
    obtain ⟨⟨voice, mode, mute, edit, phrase, freq, scale, gap, alpha, rxOsc⟩, log⟩ := w
    simp only [key, effects, keyEffects, hk, and_self, if_true, Cmd.exec_get_bind]
    by_cases h0 : edit = 0
    · subst h0
      simp [exec_redraw (setMute_apply _), perform]
    by_cases h1 : edit = 1
    · subst h1
      -- these count up and wrap at their maximum
      simp [engine, redraw_exec', perform, World.assign, World.put, Param.message, stepUp]
    by_cases h3 : edit = 3
    · subst h3
      simp [engine, redraw_exec', perform, World.assign, World.put, Param.message, stepUp]
    by_cases h4 : edit = 4
    · subst h4
      simp [engine, redraw_exec', perform, World.assign, World.put, Param.message, stepUp]
    by_cases h5 : edit = 5
    · subst h5
      rcases scale with _ | scale
      · -- the addition to nil ends the handler
        simp
      by_cases hwrap : scaleMax < scale + 10⁻¹
      -- above the maximum the variable `voxmin`, which nobody sets, is stored
      · simp [engine, redraw_exec', perform, voxmin, hwrap]
      · simp [engine, redraw_exec', perform, World.assign, World.put, Param.message, hwrap]
    by_cases h6 : edit = 6
    · subst h6
      simp [engine, redraw_exec', perform, World.assign, World.put, Param.message, stepUp]
    by_cases h7 : edit = 7
    · subst h7
      simp [engine, redraw_exec', perform, World.assign, World.put, Param.message, stepUp]
    · simp [h0, h1, h3, h4, h5, h6, h7, redraw_exec', perform]
  · simp [key, effects, hk]

theorem enc_exec (n : Int) (value : Option ℚ) (w : World) :
    (enc norns n value).exec w = (encEffects norns w n value).foldl perform w := by
  unfold enc encEffects
  rw [Cmd.exec_get_bind]
  by_cases h3 : n = 3
  · subst h3
    rcases hp : editedParam w.edit with _ | p
    · simp [redraw_exec', perform]
    rcases value with _ | x
    · simp [redraw_exec', perform]
    · simp [exec_redraw (action_apply norns p x w), perform]
  · by_cases h2 : n = 2
    · simp [h2, setEdit, redraw_exec', perform]
    · simp [h3, h2, redraw_exec', perform]

theorem processCvStream_exec (v : ℚ) (w : World) :
    (processCvStream norns v).exec w =
      (voltEffects norns (cvParam w.edit) (v / 10)).foldl perform w := by
  unfold processCvStream voltEffects cvParam
  rw [Cmd.exec_get_bind]
  by_cases h5 : w.edit = 5
  · simp [h5, exec_redraw (setScale_apply norns csScale (v / 10) w), perform, Param.spec]
  by_cases h6 : w.edit = 6
  · simp [h6, exec_redraw (setAlpha_apply norns csAlpha (v / 10) w), perform, Param.spec]
  by_cases h7 : w.edit = 7
  · simp [h7, exec_redraw (setGap_apply norns csGap (v / 10) w), perform, Param.spec]
  · simp [h5, h6, h7, redraw_exec', perform]

theorem processTriggerStream_exec (v : ℚ) (w : World) :
    (processTriggerStream norns v).exec w =
      (voltEffects norns (triggerParam w.edit) (v / 5)).foldl perform w := by
  unfold processTriggerStream voltEffects triggerParam
  rw [Cmd.exec_get_bind]
  by_cases h1 : w.edit = 1
  · simp [h1, exec_redraw (setVoice_apply norns csVoice (v / 5) w), perform, Param.spec]
  by_cases h2 : w.edit = 2
  · simp [h2, exec_redraw (setPhrase_apply norns csPhrase (v / 5) w), perform, Param.spec]
  by_cases h3 : w.edit = 3
  · simp [h3, exec_redraw (setMode_apply norns csMode (v / 5) w), perform, Param.spec]
  by_cases h4 : w.edit = 4
  · simp [h4, exec_redraw (setFreq_apply norns csFreq (v / 5) w), perform, Param.spec]
  · simp [h1, h2, h3, h4, redraw_exec', perform]

theorem netvoltage_exec (args : List ℚ) (w : World) :
    (oscEvent norns "/netvoltage" args).exec w = (netEffects norns args).foldl perform w := by
  -- the voice goes to the engine and to no variable
  have hvoice : engine .voice (arg args 2) w =
      (some ⟨⟩, ((arg args 2).map Effect.sendVoice).toList.foldl perform w) := by
    cases arg args 2 <;> rfl
  simp only [oscEvent, if_true, netEffects, netTail, List.foldl_append]
  rw [Cmd.exec_bind_of_eq hvoice]
  generalize ((arg args 2).map Effect.sendVoice).toList.foldl perform w = w
  -- each argument in turn; a missing one ends the handler where it is used
  rcases arg args 3 with _ | a3
  · rfl
  rw [Cmd.exec_some_bind, Cmd.exec_bind_of_eq (setFreq_apply norns _ _ _)]
  rcases arg args 4 with _ | a4
  · rfl
  rw [Cmd.exec_some_bind, Cmd.exec_bind_of_eq (setScale_apply norns _ _ _)]
  rcases arg args 6 with _ | a6
  · rfl
  rcases arg args 5 with _ | a5
  · rfl
  -- the raw difference that `gap` holds for a moment is overwritten by the setter
  rw [Cmd.exec_some_bind, Cmd.exec_some_bind, Cmd.exec_modify_bind,
    Cmd.exec_bind_of_eq (setGap_apply norns _ _ _), Cmd.exec_modify_bind, redraw_exec']
  rfl

theorem hexvoltage_exec (args : List ℚ) (w : World) :
    (oscEvent norns "/hexvoltage" args).exec w = (hexEffects norns args).foldl perform w := by
  simp only [oscEvent, if_true, hexEffects, String.reduceEq, if_false]
  rcases arg args 1 with _ | a1
  · rfl
  rw [Cmd.exec_some_bind, Cmd.exec_bind_of_eq (setPhrase_apply norns _ _ _)]
  rcases arg args 2 with _ | a2
  · rfl
  rw [Cmd.exec_some_bind, Cmd.exec_bind_of_eq (setAlpha_apply norns _ _ _)]
  rcases arg args 3 with _ | a3
  · rfl
  rw [Cmd.exec_some_bind, Cmd.exec_bind_of_eq (setVoice_apply norns _ _ _),
    Cmd.exec_modify_bind, redraw_exec']
  rfl

/-- Any message: one of the three paths, or no effect. -/
theorem oscEvent_exec (path : String) (args : List ℚ) (w : World) :
    (oscEvent norns path args).exec w = (oscEffects norns w path args).foldl perform w := by
  unfold oscEffects
  by_cases hnet : path = "/netvoltage"
  · rw [if_pos hnet, hnet, netvoltage_exec]
  by_cases hhex : path = "/hexvoltage"
  · rw [if_neg hnet, if_pos hhex, hhex, hexvoltage_exec]
  unfold oscEvent
  by_cases hvox : path = "/voxvoltage"
  · simp only [hvox, String.reduceEq, if_false, if_true]
    rw [Cmd.exec_bind_of_eq (setMute_apply w), Cmd.exec_modify_bind, redraw_exec']
    rfl
  · simp [hnet, hhex, hvox, redraw_exec', perform]

/-- **A handler has the effects of its event**, in order, up to the first
statement that raises an error. -/
theorem step_eq_effects (w : World) (e : Event) :
    step norns w e = (effects norns w e).foldl perform w := by
  cases e with
  | key n z => exact key_exec norns n z w
  | enc n value => exact enc_exec norns n value w
  | param p x =>
    show (action norns p x).exec w = _
    rw [Cmd.exec, action_apply]
    rfl
  | cv v => exact processCvStream_exec norns v w
  | trigger v => exact processTriggerStream_exec norns v w
  | osc path args => exact oscEvent_exec norns path args w

/-- What the effects of an event preserve, one by one, the event preserves. -/
theorem step_invariant {I : World → Prop} {P : Effect → Prop}
    (hperform : ∀ w f, I w → P f → I (perform w f)) {w : World} {e : Event}
    (heffects : ∀ f ∈ effects norns w e, P f) (hw : I w) : I (step norns w e) := by
  rw [step_eq_effects]
  exact foldl_invariant_of_forall hperform _ w hw heffects

/-! ## Which effects there are -/

section Forall

variable {norns} {P : Effect → Prop}

/-- K3 assigns, loses the scale above its maximum, and draws. -/
theorem keyEffects_forall {w : World} (hassign : ∀ p x, P (.assign p x)) (hdrawn : P .drawn)
    (hlose : w.edit = 5 → ∀ scale, w.scale = some scale → scaleMax < scale + 1 / 10 →
      P .loseScale) : ∀ f ∈ keyEffects w, P f := by
  unfold keyEffects
  split
  · simp [hassign, hdrawn]
  split
  · simp [hassign, hdrawn]
  split
  · simp [hassign, hdrawn]
  split
  · simp [hassign, hdrawn]
  split
  · -- the scale, which is lost above its maximum
    rename_i hedit
    split
    · simp
    rename_i scale hscale
    split
    · rename_i hgt
      simp [hlose hedit scale hscale hgt, hdrawn]
    · simp [hassign, hdrawn]
  split
  · simp [hassign, hdrawn]
  split <;> simp [hassign, hdrawn]

/-- The arguments behind the voice set the frequency, the scale and the gap. -/
theorem netTail_forall (hfreq : ∀ x, P (.assign .freq (csFreq.map norns x)))
    (hscale : ∀ x, P (.assign .scale (csScale.map norns x)))
    (hgap : ∀ x, P (.assign .gap (csGap.map norns x))) (hheard : P .heard) (hdrawn : P .drawn)
    (args : List ℚ) : ∀ f ∈ netTail norns args, P f := by
  unfold netTail
  split
  · simp
  split
  · simp [hfreq]
  split <;> simp [hfreq, hscale, hgap, hheard, hdrawn]

variable (hassign : ∀ p x, P (.assign p (p.spec.map norns x)))
include hassign

theorem hexEffects_forall (hheard : P .heard) (hdrawn : P .drawn) (args : List ℚ) :
    ∀ f ∈ hexEffects norns args, P f := by
  have hphrase : ∀ x, P (.assign .phrase (csPhrase.map norns x)) := hassign .phrase
  have halpha : ∀ x, P (.assign .alpha (csAlpha.map norns x)) := hassign .alpha
  have hvoice : ∀ x, P (.assign .voice (csVoice.map norns x)) := hassign .voice
  unfold hexEffects
  split
  · simp
  split
  · simpa using hphrase _
  split <;> simp [hphrase, halpha, hvoice, hheard, hdrawn]

/-- What holds of every mapped assignment, of the toggle, of the edit position,
of the voice of `/netvoltage` and of the effects of K3 holds of every effect of
an event. -/
theorem effects_forall {w : World} {e : Event} (hheard : P .heard) (hdrawn : P .drawn)
    (hmute : P (.assign .mute (toggled w.mute))) (hedit : P (.edit 0))
    (hnext : P (.edit (if w.edit + 1 = 8 then 0 else w.edit + 1)))
    (hkey : e = .key 3 1 → ∀ f ∈ keyEffects w, P f)
    (hvoice : ∀ args x, e = .osc "/netvoltage" args → arg args 2 = some x → P (.sendVoice x)) :
    ∀ f ∈ effects norns w e, P f := by
  -- an action toggles the output or assigns a mapped value
  have haction : ∀ p x, P (actionEffect norns w p x) := by
    intro p x
    unfold actionEffect
    split
    · exact hmute
    · exact hassign p x
  have hvolt : ∀ p volt, ∀ f ∈ voltEffects norns p volt, P f := by
    intro p volt
    cases p <;> simp [voltEffects, hassign, hdrawn]
  cases e with
  | key n z =>
    by_cases hk : n = 3 ∧ z = 1
    · obtain ⟨rfl, rfl⟩ := hk
      simpa [effects] using hkey rfl
    · simp [effects, hk]
  | enc n value =>
    -- encoder 3 sets the parameter of the edit position; a position without one starts over
    show ∀ f ∈ encEffects norns w n value, P f
    unfold encEffects
    split
    · split <;> simp [haction, hdrawn, hedit]
    split
    · -- encoder 2 moves the edit position
      simpa only [List.forall_mem_cons, List.not_mem_nil, false_imp_iff, implies_true, and_true]
        using ⟨hnext, hdrawn⟩
    · simpa using hdrawn
  | param p x => simpa [effects] using haction p x
  | cv v => exact hvolt _ _
  | trigger v => exact hvolt _ _
  | osc path args =>
    show ∀ f ∈ oscEffects norns w path args, P f
    unfold oscEffects
    split
    · rename_i hnet
      subst hnet
      rw [netEffects, List.forall_mem_append]
      -- the voice, if there is one, and then the rest of the arguments
      refine ⟨?_, netTail_forall (hassign .freq) (hassign .scale) (hassign .gap) hheard hdrawn args⟩
      intro f hf
      obtain ⟨x, hx, rfl⟩ : ∃ x, arg args 2 = some x ∧ Effect.sendVoice x = f := by
        simpa using hf
      exact hvoice args x rfl hx
    split
    · exact hexEffects_forall hassign hheard hdrawn args
    split <;> simp [hmute, hheard, hdrawn]

end Forall

end Effects

end Vox.Script
