import ConfluxFL.Proto
import ConfluxFL.Lib.Decimal
import ConfluxFL.Lib.Fallible
import ConfluxFL.Lib.FloatText
import ConfluxFL.Lib.KeyedTable
import ConfluxFL.Lib.Run
import ConfluxFL.Lib.Walk
import ConfluxFL.Lib.StableSort
import ConfluxFL.Config.Preconditions
import ConfluxFL.Config.Types
import ConfluxFL.Config.Params
import ConfluxFL.Config.Profile
import ConfluxFL.Config.Resolve
import ConfluxFL.Config.Env
import ConfluxFL.Config.ProfileDir
import ConfluxFL.Config.LoadProfile
import ConfluxFL.Config.Validate
import ConfluxFL.Privacy.Accountant
import ConfluxFL.Privacy.Epsilon
import ConfluxFL.Privacy.MachineEpsilon
import ConfluxFL.Privacy.Mechanism
import ConfluxFL.Store
import ConfluxFL.FileStore
import ConfluxFL.Codecs
import ConfluxFL.Privacy.Log
import ConfluxFL.Buffer
import ConfluxFL.Core.Aggregator
import ConfluxFL.Core.Krum
import ConfluxFL.Server.Batch
import ConfluxFL.Server.Checked
import ConfluxFL.Server.BatchContent
import ConfluxFL.Server.ArrivalOrder
import ConfluxFL.Server.Round
import ConfluxFL.Server.RoundSpec
import ConfluxFL.Server.Restart
import ConfluxFL.Server.Checkpoints
import ConfluxFL.Server.Atomicity
import ConfluxFL.Server.CrashSafety
import ConfluxFL.Server.Budget
import ConfluxFL.Server.Guarantee
import ConfluxFL.Server.Reproducibility
import ConfluxFL.Client
import ConfluxFL.Server.Dispatcher
import ConfluxFL.Server.Chunking
import ConfluxFL.Node
import ConfluxFL.Protocol.LocalPrivacy
import ConfluxFL.Protocol.RoundLoop
import ConfluxFL.Protocol.Network
import ConfluxFL.Protocol.System
import ConfluxFL.Protocol.Noise
import ConfluxFL.Protocol.Counting
import ConfluxFL.Protocol.Waiting
import ConfluxFL.Server.Precondition
import ConfluxFL.Server.Verdict
import ConfluxFL.Lib.Notify
import ConfluxFL.Protocol.Flushing
import ConfluxFL.Protocol.Wakeup
import ConfluxFL.Protocol.Serving
import ConfluxFL.Protocol.TaskCoherence
import ConfluxFL.Server.Backends
import ConfluxFL.Registry
import ConfluxFL.Protocol.Admission
import ConfluxFL.Server.Sampling
import ConfluxFL.Registries
import ConfluxFL.Server.Selection
import ConfluxFL.Protocol.Liveness
import ConfluxFL.Core.Vectors
import ConfluxFL.Core.Scaffold
import ConfluxFL.Server.Influence
import ConfluxFL.Server.VariateLength
import ConfluxFL.Core.Robust
import ConfluxFL.Core.Temporal
import ConfluxFL.Core.Trusted
import ConfluxFL.Core.Optimization
import ConfluxFL.Core.Flanders
import ConfluxFL.Core.Build
import ConfluxFL.Server.Dimension
import ConfluxFL.RegistryCalls
import ConfluxFL.Allowlists
import ConfluxFL.StoreHistory
import ConfluxFL.StoreCrash
import ConfluxFL.CheckpointNames
import ConfluxFL.PostgresTables
import ConfluxFL.Cli.FedRun
import ConfluxFL.Cli.ServerEnv
import ConfluxFL.NodeStartup
import ConfluxFL.Lib.Streams
import ConfluxFL.Federation.Noise
import ConfluxFL.Federation.Process
import ConfluxFL.Federation.Supervision
import ConfluxFL.Clients.Agreement
import ConfluxFL.Federation.VariateMean
import ConfluxFL.Federation.VariateGradients
import ConfluxFL.Lib.FixedText
import ConfluxFL.Federation.Recording
import ConfluxFL.Federation.VariateServer
import ConfluxFL.Lib.FloatFormat
import ConfluxFL.Federation.Observing
import ConfluxFL.PushRelay
import ConfluxFL.Server.SubmitStream
import ConfluxFL.Lib.FloatLaws
import ConfluxFL.Lib.Selection
import ConfluxFL.Core.KrumCounts
import ConfluxFL.Lib.Exact
import ConfluxFL.Lib.OrderStatistics
import ConfluxFL.Core.CoordinateRobust
import ConfluxFL.Core.KrumExact
import ConfluxFL.Core.Selections
import ConfluxFL.Lib.FloatScale
import ConfluxFL.Core.SplitBatches
import ConfluxFL.Core.BulyanSelection
import ConfluxFL.Core.BulyanTrim
import ConfluxFL.Core.CheckedFilters
import ConfluxFL.Core.SelectionSafety
import ConfluxFL.Lib.SocketText
import ConfluxFL.Core.Strategies
import ConfluxFL.Server.Startup
import ConfluxFL.Cli.Doctor
import ConfluxFL.Cli.Survey
import ConfluxFL.Core.ExactBatch
import ConfluxFL.Core.GeometricMedian
import ConfluxFL.Core.Refusals
import ConfluxFL.Core.Moments
import ConfluxFL.Core.StepCounts
import ConfluxFL.Core.StepRounding
import ConfluxFL.Core.Reductions
import ConfluxFL.Core.ScaffoldRounding
import ConfluxFL.Core.ScaffoldSum
import ConfluxFL.Core.FlandersFraction
import ConfluxFL.Core.FlandersScores
import ConfluxFL.Core.FlandersZero
import ConfluxFL.Core.Euclid
import ConfluxFL.Lib.Means
import ConfluxFL.Lib.Extended
import ConfluxFL.Core.ClippingBound
import ConfluxFL.Core.TrustBound
import ConfluxFL.Core.ScoreRuns
import ConfluxFL.Core.ZenoRanking
import ConfluxFL.Core.FoolsGoldWeights
import ConfluxFL.Core.Unanimity
import ConfluxFL.Config.QuorumAdvice
import ConfluxFL.Lib.BinomialMean
import ConfluxFL.Privacy.Composition
import ConfluxFL.Privacy.SampledGaussian
import ConfluxFL.Privacy.Exposure
import ConfluxFL.Config.Attribution
import ConfluxFL.Lib.Json
import ConfluxFL.Lib.NumberText
import ConfluxFL.Config.LogLines
import ConfluxFL.Lib.FloatOverflow
import ConfluxFL.Server.OddUpdate
import ConfluxFL.Core.DenseMatrices
import ConfluxFL.Core.FlandersSolve
import ConfluxFL.Core.FlandersSolution
import ConfluxFL.Core.FlandersFit
import ConfluxFL.Core.FlandersZero
import ConfluxFL.Core.FlandersSampling
import ConfluxFL.Attacks.AdaptiveEvasion
import ConfluxFL.Attacks.Dilution
import ConfluxFL.Lib.GradientDescent
import ConfluxFL.Reference.LinearLeastSquares
import ConfluxFL.Reference.Divergence
import ConfluxFL.Federation.Stall
import ConfluxFL.Cli.Scores
import ConfluxFL.Cli.StaleScores
import ConfluxFL.Cli.DemoScores
import ConfluxFL.Core.Translation
import ConfluxFL.Protocol.AdminPort
import ConfluxFL.Server.Answers
import ConfluxFL.Attacks.Crafted
import ConfluxFL.Attacks.Sybils
import ConfluxFL.Cli.CheckpointReport
import ConfluxFL.Core.OrderFree
import ConfluxFL.Federation.Partition
import ConfluxFL.Federation.DemoLearning
import ConfluxFL.Reference.Dataset
import ConfluxFL.Server.Sidecar
