import Systemtap.Opt.ConstFoldSound
import Systemtap.Opt.Relax
import Systemtap.Types.Exit
import Systemtap.Runtime.Buckets
import Systemtap.Runtime.Pmap
import Systemtap.Staprun.MergeOrder
import Systemtap.Runtime.Print
import Systemtap.Runtime.Vsnprintf
import Systemtap.Runtime.BlackMap
import Systemtap.Runtime.VmaMap
import Systemtap.Runtime.Control
import Systemtap.Trans.Symbols
import Systemtap.Trans.Compare
import Systemtap.Trans.Locks
import Systemtap.Elab.Alias
import Systemtap.Staprun.Permissions
import Systemtap.Staprun.Rotate
import Systemtap.Runtime.StartExit
import Systemtap.Runtime.TaskStop
import Systemtap.Trans.Entry
import Systemtap.Runtime.MapCallbacks
import Systemtap.Runtime.Semaphores
import Systemtap.Runtime.TaskRegister
import Systemtap.Lex.PpExpand
import Systemtap.Trans.FormatSurvives
import Systemtap.Dwarf.Loc2cSound
import Systemtap.Lex.Argument
import Systemtap.Runtime.Alloc
import Systemtap.Runtime.Procfs
import Systemtap.Cache.Clean
import Systemtap.Runtime.RingSort
import Systemtap.Tapset.SavedRuns
import Systemtap.Tapset.Finders
import Systemtap.Tapset.ProbeScn
import Systemtap.Tapset.NextProbe
import Systemtap.Tapset.Overload
import Systemtap.Runtime.Leb128
import Systemtap.Runtime.UnwindHdr
import Systemtap.Dwarf.Bitfield
import Systemtap.Dwarf.StructMember
import Systemtap.Util.CmdQuote
import Systemtap.Tapset.Strings
