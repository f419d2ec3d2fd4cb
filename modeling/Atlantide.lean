import Atlantide.State.S3.BackendSafety
import Atlantide.State.S3.FenceCounter
import Atlantide.Engine.SecretAudit
import Atlantide.Executor.Outputs
import Atlantide.Executor.Resurrection
import Atlantide.Executor.Edges
import Atlantide.Reconcile.Guards
import Atlantide.Reconcile.ProviderInputs
import Atlantide.Reconcile.Lenient
import Atlantide.Reconcile.Refresh
import Atlantide.Reconcile.Convergence
import Atlantide.Executor.DeclaredOutputs
import Atlantide.Engine.PlannedHandles
import Atlantide.State.OutputFence
import Atlantide.Executor.NodeIds
import Atlantide.Graph.Order
import Atlantide.Graph.Schedule
import Atlantide.Executor.Leftovers
import Atlantide.Components.Fetch
import Atlantide.State.S3.Layout
import Atlantide.Engine.LockScope
import Atlantide.Engine.DestroyFirst
import Atlantide.IR.MerkleHash
import Atlantide.Lang.Interp
import Atlantide.Reconcile.Renames
import Atlantide.Cli.Migrate
import Atlantide.IR.CanonicalJson
import Atlantide.IR.MerkleExact
import Atlantide.Executor.Confirmation
import Atlantide.IR.Artifact
import Atlantide.Engine.Deploy
import Atlantide.IR.Lower
import Atlantide.Reconcile.IgnoredFields
import Atlantide.State.S3.FailedAcquire
import Atlantide.State.S3.Causality
import Atlantide.Core.Substitution
import Atlantide.Graph.Cycles
import Atlantide.Reconcile.StateWriter
import Atlantide.Reconcile.WriteGate
import Atlantide.Lib.Sorting
import Atlantide.Core.Native
import Atlantide.Reconcile.LiveForm
import Atlantide.Engine.CreateFirst
import Atlantide.Lang.Walks
import Atlantide.Components.Lock
import Atlantide.Core.Naming
import Atlantide.Components.TreeHash
import Atlantide.Lang.With
import Atlantide.Lang.Fuel
import Atlantide.Lang.Binding
import Atlantide.Lang.IntBounds
import Atlantide.Providers.SecurityGroup
import Atlantide.Engine.Approved
import Atlantide.State.Agreement
import Atlantide.Lang.Accepted
import Atlantide.Engine.Policies
import Atlantide.Secrets.KeyfileSafety
import Atlantide.Reconcile.Adoption
