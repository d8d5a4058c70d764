import FerrumKv.Proofs.ClimbHistory
import FerrumKv.Proofs.Console
import FerrumKv.Proofs.Counter
import FerrumKv.Proofs.CrashAtomicity
import FerrumKv.Proofs.Damage
import FerrumKv.Proofs.Expiry
import FerrumKv.Proofs.Faults
import FerrumKv.Proofs.Glob
import FerrumKv.Proofs.GroupCommit
import FerrumKv.Proofs.KeyBrowser
import FerrumKv.Proofs.Lifecycle
import FerrumKv.Proofs.Locks
import FerrumKv.Proofs.Monitoring
import FerrumKv.Proofs.MultiRead
import FerrumKv.Proofs.Process
import FerrumKv.Proofs.Recency
import FerrumKv.Proofs.Replies
import FerrumKv.Proofs.Restarts
import FerrumKv.Proofs.SieveHistory
import FerrumKv.Proofs.Slowlog
import FerrumKv.Proofs.Sweeper
import FerrumKv.Proofs.Switch
import FerrumKv.Proofs.ViewAndSave
