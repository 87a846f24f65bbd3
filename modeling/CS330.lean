import CS330.ObjStore.Names
import CS330.ObjStore.Equivalence
import CS330.ObjStore.Remount
import CS330.ObjStore.Growth
import CS330.ObjStore.Callers
import CS330.ObjStore.Clashes
import CS330.ObjStore.Metadata
import CS330.ObjStore.Failures
import CS330.ObjStore.Reports
import CS330.ObjStore.Locks
import CS330.ObjStore.Abandon
import CS330.ObjStore.Liveness
import CS330.ObjStore.Keys
import CS330.ObjStore.Residue
import CS330.ObjStore.Allocator
import CS330.ObjStore.Limits
import CS330.ObjStore.Space
import CS330.ObjStore.Holes
import CS330.ObjStore.Overwrite
import CS330.ObjStore.Caching
import CS330.ObjStore.Values
import CS330.ObjStore.Clients
import CS330.ObjStore.Crash
import CS330.ObjStore.Mounting
import CS330.ExampleStore.Builds
import CS330.Sched.Fairness
import CS330.Sched.Alarm
import CS330.Sched.Ignored
import CS330.Sched.Registered
import CS330.Sched.Naming
import CS330.Sched.Numerals
import CS330.Sched.Sleep
import CS330.Sched.Stacks
import CS330.Sched.Lifecycle
import CS330.Entry.Installing
import CS330.Entry.Write
import CS330.Entry.Accounting
import CS330.Entry.Shrink
import CS330.Entry.Memory
import CS330.Paging.Cleanup
import CS330.Paging.Contexts
