import LinearProbing.Key.Content
import LinearProbing.Key.Order
import LinearProbing.Text.Containers
import LinearProbing.Text.Interchange
import LinearProbing.Proofs.Bucket
import LinearProbing.Proofs.Path
import LinearProbing.Proofs.ProbePath
import LinearProbing.Proofs.Sweep
import LinearProbing.Proofs.Replay
import LinearProbing.Proofs.Sound
import LinearProbing.Proofs.Run
import LinearProbing.Proofs.Search
import LinearProbing.Proofs.Journal
import LinearProbing.Proofs.History
import LinearProbing.Proofs.Growth
import LinearProbing.Proofs.Association
import LinearProbing.Proofs.StoreCalls
import LinearProbing.Proofs.Refinement
import LinearProbing.Proofs.Canonical
import LinearProbing.Proofs.Slots
import LinearProbing.Proofs.Pool
import LinearProbing.Proofs.HashConsing
import LinearProbing.Proofs.Untrusted
import LinearProbing.Proofs.Interning
import LinearProbing.Proofs.Occupancy
import LinearProbing.Proofs.Union
import LinearProbing.Proofs.BinarySearch
import LinearProbing.Proofs.Lifetime
import LinearProbing.Proofs.Removal
import LinearProbing.Proofs.PoolGrowth
import LinearProbing.Proofs.Reentry
import LinearProbing.Proofs.Asking
import LinearProbing.Proofs.Values
import LinearProbing.Proofs.Insertion
import LinearProbing.Proofs.Rehashing
import LinearProbing.Proofs.Dating
import LinearProbing.Proofs.Walking
import LinearProbing.Proofs.Writing
import LinearProbing.Proofs.Iteration
import LinearProbing.Proofs.Streaming
import LinearProbing.Proofs.Buffers
import LinearProbing.Proofs.Membership
import LinearProbing.Proofs.Refusals
import LinearProbing.Proofs.Collisions
import LinearProbing.Proofs.Filling
import LinearProbing.Proofs.Merging
