import Interlock.Memory
import Interlock.RbTree.Node
import Interlock.RbTree.Tree
import Interlock.RbTree.Layout
import Interlock.RbTree.Limit
import Interlock.RbTree.Rotate
import Interlock.RbTree.Insert
import Interlock.RbTree.Rebalance
import Interlock.RbTree.Exchange
import Interlock.RbTree.Remove
import Interlock.RbTree.Search
import Interlock.RbTree.Run
import Interlock.RbTree.Queries
import Interlock.RbTree.Height
import Interlock.RbTree.Forest
import Interlock.Core.State
import Interlock.Core.Operations
import Interlock.Core.Table
import Interlock.Core.Invariant
import Interlock.Core.Release
import Interlock.Core.Layout
import Interlock.Core.Search
import Interlock.Core.Region
import Interlock.Core.System
import Interlock.Core.History
import Interlock.Core.Simulation
import Interlock.Core.Unlock
import Interlock.Core.Run
import Interlock.Core.View
import Interlock.Core.Exact
import Interlock.Core.Safety
import Interlock.Core.Fifo
import Interlock.Core.Links
import Interlock.Core.Visits
import Interlock.Core.Effect
import Interlock.Core.Delivery
import Interlock.Core.Calls
import Interlock.Core.Client
import Interlock.Core.Unchecked
import Interlock.Core.Progress
import Interlock.Core.Independence
import Interlock.Core.Refr
import Interlock.Core.Mirrors
import Interlock.Core.Refinement
import Interlock.Core.Objects
import Interlock.Core.Lifetime
import Interlock.Raw.Future
import Interlock.Raw.Executor
import Interlock.Raw.Blocking
import Interlock.Raw.Progress
import Interlock.Raw.Local
import Interlock.Hl.Slice
import Interlock.Hl.Contents
