import SbFuzz.Unicornafl.ForkserverDiscipline
import SbFuzz.Unicornafl.CrashReports
import SbFuzz.Unicornafl.CoverageProperties
import SbFuzz.Context.CLoaderProperties
import SbFuzz.SandboxFuzzer.ContextRoundTrip
import SbFuzz.Samples.HarnessProperties
import SbFuzz.Samples.Harness2
import SbFuzz.Fuzzer.BitmapHistory
import SbFuzz.Fuzzer.FastResumeProperties
import SbFuzz.Fuzzer.CampaignScores
import SbFuzz.Fuzzer.CampaignResume
import SbFuzz.Fuzzer.CampaignFavorites
import SbFuzz.Instrumentation.Cmplog
import SbFuzz.Fuzzer.SyncFuzzers
import SbFuzz.Instrumentation.SplitSwitchesProperties
import SbFuzz.Instrumentation.SplitFloatComparesProperties
import SbFuzz.SandboxFuzzer.Datasource
import SbFuzz.Samples.HarnessManfred
import SbFuzz.Utils.ArgvFuzz
import SbFuzz.Utils.AflCmin
import SbFuzz.Instrumentation.CompareTransformProperties
import SbFuzz.Utils.NetworkProxyProperties
import SbFuzz.UnicornMode.SimpleHeapAccesses
import SbFuzz.Fuzzer.AliasStacks
import SbFuzz.Fuzzer.CullingOrder
import SbFuzz.Fuzzer.DryRun
import SbFuzz.Fuzzer.TestcaseCacheSize
import SbFuzz.Fuzzer.DeterministicLosses
import SbFuzz.Fuzzer.HandshakeAgreement
import SbFuzz.Fuzzer.SplicePartners
import SbFuzz.Fuzzer.TextCheckProperties
import SbFuzz.Fuzzer.SaveIfInterestingCounts
import SbFuzz.Fuzzer.AutoTokensProperties
import SbFuzz.Utils.AflTminProperties
import SbFuzz.Fuzzer.TrimCaseCustomProperties
import SbFuzz.Fuzzer.AflMutateBounds
import SbFuzz.Fuzzer.MaybeAddAutoInvariants
import SbFuzz.Fuzzer.Deunicode
import SbFuzz.Fuzzer.SkipDetProperties
import SbFuzz.Fuzzer.RedqueenEncodingProperties
import SbFuzz.Fuzzer.ColorizationTaint
import SbFuzz.Fuzzer.RedqueenRtnRestores
import SbFuzz.Fuzzer.Hashmap
import SbFuzz.Memory.AllocInl
import SbFuzz.Fuzzer.CoverageBuildsProperties
import SbFuzz.Instrumentation.SplitComparesComplete
import SbFuzz.Fuzzer.WriteToTestcaseProperties
import SbFuzz.Fuzzer.PersistentRecordProperties
import SbFuzz.FridaMode.Ranges
import SbFuzz.FridaMode.PrefetchProperties
import SbFuzz.Instrumentation.InstrumentList
import SbFuzz.QemuMode.Compcov
import SbFuzz.QemuMode.QasanLayout
import SbFuzz.QemuMode.QasanQuarantine
import SbFuzz.QemuMode.QasanStringCalls
import SbFuzz.Utils.Tokencap
import SbFuzz.Utils.DislocatorRuns
import SbFuzz.CustomMutators.AutotokensRejection
import SbFuzz.CustomMutators.AutotokensMachine
import SbFuzz.Memory.ElementListProperties
import SbFuzz.Instrumentation.LocatePcs
import SbFuzz.Fuzzer.RandBelow
import SbFuzz.Fuzzer.RunTargetProperties
import SbFuzz.CustomMutators.ConstructAutomataProperties
