import Xmix.Apply.Slots
import Xmix.Apply.Stacking
import Xmix.Dsl.Clauses
import Xmix.Dsl.Construction
import Xmix.Dsl.References
import Xmix.Dsl.Scope
import Xmix.Dsl.Verbs
import Xmix.Eplb.Replication
import Xmix.Kernels.Ablation
import Xmix.Kernels.CompactMask
import Xmix.Kernels.Linear
import Xmix.Kernels.Router
import Xmix.Kv.Events
import Xmix.Kv.Hybrid
import Xmix.Kv.ModelLen
import Xmix.Kv.StartUp
import Xmix.Kv.Windows
import Xmix.Multimodal.Serial
import Xmix.Output.Reasoning
import Xmix.Sample.TopKTopP
import Xmix.Sched.Adapters
import Xmix.Sched.FirstCome
import Xmix.Sched.PriorityQueue
import Xmix.Sched.References
import Xmix.SpecDecode.Eagle
import Xmix.Worker.LogitsRuns
import Xmix.Worker.PoolingBatch
import Xmix.Worker.TokenMask
