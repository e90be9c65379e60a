import DnsHive.Lib.Amortized
import DnsHive.Lib.Chain
import DnsHive.Lib.Chase
import DnsHive.Lib.Lockstep
import DnsHive.Lib.Machine
import DnsHive.Lib.Share
import DnsHive.Lib.StableSort
import DnsHive.LRUHash.Turning
import DnsHive.LRUHash.Chains
import DnsHive.Flow.Contract
import DnsHive.Flow.Accounting
import DnsHive.Flow.Examination
import DnsHive.Flow.Isolation
import DnsHive.Flow.Memory
import DnsHive.Flow.Transport
import DnsHive.Flow.Work
import DnsHive.DnsDB.Reload
import DnsHive.DnsDB.Shared
import DnsHive.Hive.Amid
import DnsHive.Hive.Comparison
import DnsHive.Hive.EventFile
import DnsHive.Hive.Names
import DnsHive.Hive.RedisReport
import DnsHive.Hive.Stream
import DnsHive.Main
