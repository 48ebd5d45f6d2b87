import OrionServe.Core
import OrionServe.Sequence
import OrionServe.Lib.Chunks
import OrionServe.Lib.AssocMap
import OrionServe.Lib.Refcount
import OrionServe.Lib.Since
import OrionServe.Lib.Keyed
import OrionServe.Lib.Tiling
import OrionServe.Lib.Places
import OrionServe.Lib.Search
import OrionServe.Lib.Delimited
import OrionServe.Lib.Layers
import OrionServe.Lib.Contents
import OrionServe.Lib.Slices
import OrionServe.Lib.Decoder
import OrionServe.Lib.Loops
import OrionServe.Lib.Utf8
import OrionServe.Lib.RunningSum
import OrionServe.Lib.Usize
import OrionServe.Lib.Words
import OrionServe.BlockPool
import OrionServe.PoolOrder
import OrionServe.BlockTable
import OrionServe.HashChain
import OrionServe.PrefixCache
import OrionServe.CacheManager
import OrionServe.CacheMoves
import OrionServe.CacheOperations
import OrionServe.CacheRun
import OrionServe.CacheIndex
import OrionServe.CacheGrowth
import OrionServe.CacheSharing
import OrionServe.CacheReuse
import OrionServe.CacheRoom
import OrionServe.Scheduler
import OrionServe.SchedulerMoves
import OrionServe.SchedulerRun
import OrionServe.SchedulerHistory
import OrionServe.SchedulerInvariant
import OrionServe.SchedulerReach
import OrionServe.SchedulerPreemption
import OrionServe.SchedulerEntries
import OrionServe.SchedulerReuse
import OrionServe.SchedulerBatch
import OrionServe.Batch
import OrionServe.Engine
import OrionServe.EngineReach
import OrionServe.EngineBatch
import OrionServe.SchedulerStages
import OrionServe.SchedulerQueues
import OrionServe.SchedulerTurns
import OrionServe.SchedulerTokens
import OrionServe.SchedulerAlone
import OrionServe.SchedulerProgress
import OrionServe.SchedulerOldest
import OrionServe.SchedulerHeadway
import OrionServe.SchedulerBounds
import OrionServe.SchedulerChunks
import OrionServe.SchedulerInside
import OrionServe.EngineStreams
import OrionServe.EngineLives
import OrionServe.EngineChannels
import OrionServe.EngineUsage
import OrionServe.EngineLeaks
import OrionServe.EngineSlots
import OrionServe.EngineWrites
import OrionServe.EngineFailures
import OrionServe.StopSequences
import OrionServe.ChatTemplate
import OrionServe.Handlers
import OrionServe.ReceiveLoop
import OrionServe.Exchange
import OrionServe.EngineLoop
import OrionServe.Sampling
import OrionServe.ExactSampling
import OrionServe.TopK
import OrionServe.TopP
import OrionServe.StochasticSampling
import OrionServe.SamplingDistribution
import OrionServe.EngineDraws
import OrionServe.Lib.Binary32
import OrionServe.Quantization
import OrionServe.Tensor
import OrionServe.RopeRelative
import OrionServe.Attention
import OrionServe.KvArena
import OrionServe.ModelMetadata
import OrionServe.Distributed
import OrionServe.Transformer
import OrionServe.TransformerWrites
import OrionServe.TransformerRows
import OrionServe.TransformerForward
import OrionServe.Batching
import OrionServe.PassFrame
import OrionServe.Loading
import OrionServe.ForwardReturns
import OrionServe.LoadedModel
import OrionServe.ChunkedPrefill
import OrionServe.SchedulerServing
import OrionServe.SchedulerCalls
import OrionServe.SchedulerDrains
import OrionServe.SchedulerEnds
import OrionServe.SchedulerContext
import OrionServe.ContiguousAttention
import OrionServe.Recomputation
import OrionServe.Serving
import OrionServe.CacheExact
import OrionServe.CacheComplete
import OrionServe.EngineContents
import OrionServe.EnginePrefills
import OrionServe.EngineFirstToken
import OrionServe.EngineReads
import OrionServe.EngineCalm
import OrionServe.EngineReturns
import OrionServe.Decoding
import OrionServe.EngineDecoding
import OrionServe.IncrementalDecoder
import OrionServe.ReplyText
import OrionServe.SchedulerEvictions
