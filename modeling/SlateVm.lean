import SlateVm.Interp.Remembered
import SlateVm.Text.Utf16
import SlateVm.Frames.Confined
import SlateVm.Frames.Home
import SlateVm.Frames.Variables
import SlateVm.Collections.SetReader
import SlateVm.Collections.TrieRefines
import SlateVm.Collections.Heap
import SlateVm.Collections.SortedRefines
import SlateVm.Collections.LinkedList
import SlateVm.Collections.TreeRefines
import SlateVm.Collections.BagRefines
import SlateVm.Collections.ReadStreamRefines
import SlateVm.Collections.OrderedDictionary
import SlateVm.Collections.RingBuffer
import SlateVm.Text.GlobRefines
import SlateVm.Digest.Md5
import SlateVm.Text.Compose
import SlateVm.Bootstrap.Loading
import SlateVm.Compiler.InlinedMeaning
import SlateVm.Optimizer.Elimination
import SlateVm.Interp.ForwardTo
import SlateVm.Interp.OptimizedRuns
import SlateVm.Maps.SlotRuns
import SlateVm.Maps.RoleRuns
import SlateVm.Interp.Replacement
import SlateVm.Interp.Marshal
import SlateVm.Interp.MemoryAreaRuns
import SlateVm.Compiler.KeyedBranch
import SlateVm.Interp.ProfilerRuns
import SlateVm.Number.Primes
import SlateVm.Number.RationalExact
import SlateVm.Number.ByteAccess
import SlateVm.Syntax.Parallel
import SlateVm.Syntax.BlockMacros
import SlateVm.Types.Exact
import SlateVm.Collections.MergeSort
import SlateVm.Collections.Rotation
import SlateVm.Collections.Combinations
import SlateVm.Collections.Ranges
import SlateVm.Collections.SourceStreams
import SlateVm.Text.Lines
import SlateVm.Text.LineNumbers
import SlateVm.Collections.StreamProcessors
import SlateVm.Collections.Digraph
import SlateVm.Text.Literals
import SlateVm.Dispatch.Cached
