import Vox.Engine.Labelling
import Vox.Engine.PitchMode
import Vox.Mage.ArgumentBounds
import Vox.Mage.SpeechOrder
import Vox.Mage.SpeechProgress
import Vox.Mage.Vocoder
import Vox.SCMage.LabelBuffer
import Vox.SCMage.UnitLifecycle
import Vox.Script.Params
import Vox.Mage.LabelFifo
import Vox.Mage.MemQueueBatch
import Vox.Mage.FrameCounter
import Vox.Mage.BatchEquations
import Vox.Mage.ReadBack
import Vox.Mage.GenerationBounds
import Vox.Mage.VoiceWeights
import Vox.Mage.SlotHistory
import Vox.Mage.SilentVoice
import Vox.Mage.VocoderReset
import Vox.Labelizer.Utterance
import Vox.Labelizer.FrontEnds
import Vox.Labelizer.Positions
import Vox.Labelizer.Distances
import Vox.Labelizer.Syllables
import Vox.Labelizer.Dictionary
import Vox.Mage.VoiceOptions
import Vox.Mage.DurationTarget
import Vox.Mage.DurationUpdate
import Vox.Mage.InterpolatedDurations
import Vox.Mage.Solver
import Vox.Mage.LabelHistory
import Vox.Mage.VoicedPitch
import Vox.Mage.PulseTrain
import Vox.Mage.FilterGlide
import Vox.Mage.FramePace
import Vox.Mage.WeightReset
import Vox.Mage.GammaStage
import Vox.Mage.GvFlags
import Vox.Mage.PsolaVocoder
import Vox.Hts.Voice
import Vox.Labelizer.Questions
import Vox.Mage.GvTrajectory
