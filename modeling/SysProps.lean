import SysProps.Bytes
import SysProps.Serial
import SysProps.Area.Basic
import SysProps.Area.Trie
import SysProps.Area.Reader
import SysProps.Area.Arena
import SysProps.Area.ArenaWalk
import SysProps.Area.ArenaEntry
import SysProps.Area.ArenaRemove
import SysProps.Area.Tree
import SysProps.Area.SegTree
import SysProps.Area.Shape
import SysProps.Area.Prune
import SysProps.Area.Walk
import SysProps.Area.Names
import SysProps.Area.TrieWrites
import SysProps.Area.Grow
import SysProps.Split
import SysProps.SpecEntries
import SysProps.System
import SysProps.Area.Store
import SysProps.Refinement
import SysProps.Setter
import SysProps.Update
import SysProps.Wait
import SysProps.LongFlag
import SysProps.DirtyBit
import SysProps.Index.Lookup
import SysProps.Index.Routing
import SysProps.Enumerate
