import TailBlend.HashSeparation
import TailBlend.AdmissionRuns
import TailBlend.EncoderAgreement
import TailBlend.EncoderRuns
import TailBlend.LengthLimit
import TailBlend.StreamingSessions
import TailBlend.CpuOffloadRuns
import TailBlend.LocalHits
import TailBlend.OffloadHits
import TailBlend.CacheEventRuns
import TailBlend.DeltaStream
import TailBlend.BudgetRuns
import TailBlend.ProcessorRuns
import TailBlend.BitmaskAlignment
import TailBlend.MirroredCache
import TailBlend.NixlHeads
import TailBlend.NixlNotifications
import TailBlend.MultiConnector
import TailBlend.ExpertReplication
import TailBlend.ContextParallel
import TailBlend.PoolQueue
