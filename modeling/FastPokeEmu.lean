import FastPokeEmu.EmuFuzzball.LazySoundness
import FastPokeEmu.Floppy.SimpleAggregation
import FastPokeEmu.EmuFuzzball.PathMerging
import FastPokeEmu.EmuFuzzball.BehaviorQueries
import FastPokeEmu.Floppy.TestcaseRoundTrip
import FastPokeEmu.Floppy.Ordering
import FastPokeEmu.Floppy.MergedReads
import FastPokeEmu.Floppy.WordCopies
import FastPokeEmu.Floppy.HiddenEffects
import FastPokeEmu.KvmRun.RoundTrip
import FastPokeEmu.Floppy.FaultRuns
import FastPokeEmu.EmuFuzzball.ValueRefinement
import FastPokeEmu.EmuFuzzball.LexicalScope
import FastPokeEmu.EmuFuzzball.OutputNames
import FastPokeEmu.Floppy.AddressRequests
import FastPokeEmu.Kernel.HandlerRuns
import FastPokeEmu.Floppy.BlockOverruns
import FastPokeEmu.Floppy.PreTests
import FastPokeEmu.CpuState.CountDiffs
import FastPokeEmu.EmuFuzzball.MissingRegions
import FastPokeEmu.EmuFuzzball.PathPruning
import FastPokeEmu.EmuFuzzball.DescriptorInputs
import FastPokeEmu.EmuFuzzball.BufferInputs
import FastPokeEmu.CpuState.MsrReports
import FastPokeEmu.CpuState.Segments
import FastPokeEmu.WhiteBochs.Disassembly
import FastPokeEmu.Floppy.ExplicitOperands
import FastPokeEmu.Kernel.PageTables
import FastPokeEmu.FuzzBall.Exploration
