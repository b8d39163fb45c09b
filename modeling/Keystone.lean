import Keystone.Sm.PrivateRegisters
import Keystone.Sm.Interleaving.Serial
import Keystone.Sm.Interleaving.Switching
import Keystone.Sdk.Loader
import Keystone.Sm.Sealing
import Keystone.Runtime.Merkle.Tampering
import Keystone.Sm.Erasure
import Keystone.Sm.Disclosure
import Keystone.Sm.Attested
import Keystone.Driver.Mapping
import Keystone.Runtime.PageTable.KernelMappings
import Keystone.Runtime.BackingRuns
import Keystone.Runtime.Merkle.DepthLimit
import Keystone.Sm.Pmp.Widths
import Keystone.Sm.Boot
import Keystone.Sm.Assertions
import Keystone.Sm.MprvAsm.Copy
import Keystone.Runtime.Paging.FlatMemory
import Keystone.Driver.Unfinalized
import Keystone.Runtime.PageTable.Conflicts
import Keystone.Runtime.PageTable.DirectMap
import Keystone.Runtime.VectorIo
import Keystone.Sdk.EdgeDispatch
import Keystone.Sdk.ReportJson
import Keystone.Sdk.WrappedRet
import Keystone.Runtime.FreeMem
import Keystone.Runtime.Paging.Init
import Keystone.Runtime.PageTable.Handoff
import Keystone.Runtime.Merkle.FreeList
import Keystone.Runtime.Strings
