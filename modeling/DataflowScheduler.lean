import DataflowScheduler.Transforms.AccessGranularityLegalization.LegalLoads
import DataflowScheduler.Transforms.AddressAssignment.Placement
import DataflowScheduler.Dialect.KTDF.StageEdges
import DataflowScheduler.Dialect.KTDF.Transforms.StageCoarsening.Named
import DataflowScheduler.Dialect.KTDF.Transforms.SplitReductionInnerOuterDim.Results
import DataflowScheduler.Conversion.KTDFToKTDFLow.SignalGuards
import DataflowScheduler.Conversion.KTDFToKTDFLow.BackEdgeOrder
import DataflowScheduler.Transforms.PathExpansion.Units
import DataflowScheduler.Conversion.KTDFLowToDFIR.BufferPhases
import DataflowScheduler.Transforms.Utils.LegalizedTrees
import DataflowScheduler.Transforms.ParallelizeLoopsAcrossInstances.Instances
import DataflowScheduler.Conversion.KTDFLowToDFIR.ParallelAddresses
import DataflowScheduler.Conversion.KTDFLowToDFIR.DataTransferElements
import DataflowScheduler.Conversion.KTDFLowToDFIR.IndDataTransferExact
import DataflowScheduler.Conversion.KTDFLowToDFIR.SymbolIds
import DataflowScheduler.Conversion.KTDFLowToDFIR.SignalPeers
import DataflowScheduler.Conversion.KTIRToScheduleIR.AddressBuffers
import DataflowScheduler.Conversion.KTIRToScheduleIR.SplitAccesses
import DataflowScheduler.Conversion.KTIRToScheduleIR.BufferizedAccesses
import DataflowScheduler.Transforms.DoubleBuffering.Values
import DataflowScheduler.Dialect.KTDF.Utils.FusedTransfers
import DataflowScheduler.Conversion.KTIRToScheduleIR.ExtractionRuns
import DataflowScheduler.Transforms.PathExpansion.ClassifiedSides
import DataflowScheduler.Transforms.PathExpansion.SlotOrder
import DataflowScheduler.Analysis.MemoryPath
import DataflowScheduler.Analysis.ShortestPath
import DataflowScheduler.Transforms.AddressAssignment.Sizes
import DataflowScheduler.Conversion.KTDFLowToDFIR.RestrictedPrograms
import DataflowScheduler.Conversion.ScheduleIRToDFIR.SplitPrograms
import DataflowScheduler.Analysis.StageOrder
import DataflowScheduler.Transforms.PathExpansion.RelinkedStages
import DataflowScheduler.Transforms.NormalizeGridTo1D
import DataflowScheduler.Dialect.KTDF.Analysis.LoopTiling
import DataflowScheduler.Dialect.KTDF.Transforms.StageCoarsening.ScopeCorrection
import DataflowScheduler.Dialect.KTDF.Transforms.StageCoarsening.CorrectedScopes
import DataflowScheduler.Dialect.KTDF.Transforms.StageCoarsening.MovedResults
import DataflowScheduler.Dialect.KTDF.Transforms.StageCoarsening.PrivateUses
import DataflowScheduler.Dialect.KTDF.Transforms.StageCoarsening.ScopeMoves
import DataflowScheduler.Conversion.KTDFLowToDFIR.QueryMapArithCollapse
import DataflowScheduler.Conversion.KTDFLowToDFIR.CollapsedQueries
import DataflowScheduler.Dialect.KTDF.Transforms.StageCoarsening.ExpandedBuffers
import DataflowScheduler.Dialect.KTDF.Transforms.ReductionDimChunking.ChunkWindows
import DataflowScheduler.Dialect.KTDF.Transforms.SimplifyPipeline
import DataflowScheduler.Dialect.KTDF.Transforms.SimplifyPipeline.OrderLoop
import DataflowScheduler.Dialect.KTDF.Transforms.SimplifyPipeline.ReducedDependencies
import DataflowScheduler.Conversion.KTDFLowToDFIR.SyncedPaths
import DataflowScheduler.Dialect.KTDF.Transforms.TileSizeSelection
import DataflowScheduler.Conversion.KTIRToScheduleIR.KTIRMapAndTile
import DataflowScheduler.Analysis.OperationForest
import DataflowScheduler.Analysis.ComputedTree
import DataflowScheduler.Transforms.Utils.AdditionalIterArgs
import DataflowScheduler.Transforms.Utils.DeadOps
import DataflowScheduler.Conversion.KTIRToScheduleIR.BubbleUpSlice
import DataflowScheduler.Transforms.LinalgRewrites
import DataflowScheduler.Conversion.KTDFLowToDFIR.SignalledRuns
import DataflowScheduler.Analysis.InitialMemoryTree
import DataflowScheduler.Transforms.OrderFifoSlotsByUse
