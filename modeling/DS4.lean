import DS4.FlashMoe.Machine
import DS4.FlashMoe.StepAssignment
import DS4.FlashMoe.AsyncLive
import DS4.Server.Job
import DS4.Server.Replay
import DS4.Server.TrackerReference
import DS4.Engine.Coherence
import DS4.FlashMoe.ShrinkCoherence
import DS4.FlashMoe.ResidentCounts
import DS4.FlashMoe.OverlapPlan
import DS4.Checkpoint.Atomic
import DS4.KvStore.Faithful
import DS4.Server.ToolReplay
import DS4.Server.ToolMapRun
import DS4.Server.KvFile
import DS4.Agent.SessionFiles
import DS4.Agent.Turn
import DS4.Agent.EditExact
import DS4.Tokenizer.Grammar
import DS4.KvStore.Lookup
import DS4.KvStore.Evict
import DS4.KvStore.Schedule
import DS4.Server.JsonStrings
import DS4.FlashMoe.ManifestText
import DS4.FlashMoe.ManifestJson
import DS4.Agent.DsmlRender
import DS4.Engine.RawRing
import DS4.FlashMoe.CacheSize
import DS4.Engine.Gguf
import DS4.Engine.Sampler
import DS4.Server.HttpRequest
import DS4.Server.Responses
import DS4.Server.JsonMinify
import DS4.Tokenizer.ChatEncoding
import DS4.Server.ThinkingTags
import DS4.Tokenizer.StrTable
import DS4.FlashMoe.SplitRead
import DS4.Server.LiveUtf8
import DS4.Rax.Run
import DS4.Rax.Overflow
import DS4.Server.Rendered
import DS4.Server.StreamChunks
