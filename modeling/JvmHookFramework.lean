import JvmHookFramework.Registry.Refinement
import JvmHookFramework.Registry.Order
import JvmHookFramework.Foundation.GuardStack
import JvmHookFramework.Foundation.Ownership
import JvmHookFramework.Machine.Thread
import JvmHookFramework.Machine.Guards
import JvmHookFramework.Machine.Arrays
import JvmHookFramework.Machine.Nesting
import JvmHookFramework.Machine.ExitSnapshot
import JvmHookFramework.Machine.Pairing
import JvmHookFramework.Machine.Dispatch
import JvmHookFramework.Machine.Handles
import JvmHookFramework.Jvm.Descriptor
import JvmHookFramework.Foundation.LastWrite
import JvmHookFramework.Native.DescriptorWalk
import JvmHookFramework.Native.ForcedReturn
import JvmHookFramework.Native.ArgumentTable
import JvmHookFramework.Native.WriteBack
import JvmHookFramework.Machine.Callbacks
import JvmHookFramework.Machine.Returns
import JvmHookFramework.Machine.Rewriting
import JvmHookFramework.Machine.Loaders
import JvmHookFramework.Machine.Owner
import JvmHookFramework.Machine.ArrayBalance
import JvmHookFramework.Machine.Strings
import JvmHookFramework.Machine.Metadata
import JvmHookFramework.Machine.Outcome
import JvmHookFramework.Native.ParameterSlots
import JvmHookFramework.Native.ReturnType
import JvmHookFramework.Native.ArgumentLaws
import JvmHookFramework.Foundation.Custody
import JvmHookFramework.Native.OwnedRefs
import JvmHookFramework.Machine.References
import JvmHookFramework.Machine.RefHistory
import JvmHookFramework.Machine.ArgumentRefs
import JvmHookFramework.Machine.ReturnRefs
import JvmHookFramework.Native.IntRanges
import JvmHookFramework.Machine.Ranges
import JvmHookFramework.Machine.FrameReads
import JvmHookFramework.Foundation.Retention
import JvmHookFramework.Machine.Callers
import JvmHookFramework.Foundation.Simulation
import JvmHookFramework.Foundation.Parts
import JvmHookFramework.Agent.Model
import JvmHookFramework.Agent.View
import JvmHookFramework.Agent.Move
import JvmHookFramework.Agent.Refinement
import JvmHookFramework.Agent.Calls
import JvmHookFramework.Agent.Progress
import JvmHookFramework.Agent.Isolation
import JvmHookFramework.Foundation.Rank
import JvmHookFramework.Agent.Unwinding
import JvmHookFramework.Foundation.Rounds
import JvmHookFramework.Agent.Delivery
import JvmHookFramework.Agent.Provenance
import JvmHookFramework.Foundation.Traversal
import JvmHookFramework.Bridge.Model
import JvmHookFramework.Bridge.Tours
import JvmHookFramework.Foundation.Lines
import JvmHookFramework.Startup.ExtensionList
import JvmHookFramework.Startup.ExtLoader
import JvmHookFramework.Startup.OlderCalls
import JvmHookFramework.Startup.Launcher
