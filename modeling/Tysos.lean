import Tysos.Sched.Membership
import Tysos.Sched.RoundRobin
import Tysos.Memory.FindFree
import Tysos.Memory.Growth
import Tysos.Memory.SectionIndex
import Tysos.Memory.FirstFit
import Tysos.Memory.HeapReservation
import Tysos.Boot.NonRam
import Tysos.PhysMem.Ownership
import Tysos.PhysMem.Lifo
import Tysos.PhysMem.FindRange
import Tysos.PhysMem.BitmapSearch
import Tysos.PhysMem.BitmapPage
import Tysos.PhysMem.BitmapRange
import Tysos.PhysMem.MemorySize
import Tysos.Paging.Backing
import Tysos.Paging.ForeignSpace
import Tysos.Paging.Range
import Tysos.Paging.OutOfMemory
import Tysos.Paging.TranslationBuffer
import Tysos.Sync.OneProcessor
import Tysos.PhysMem.SharedStack
import Tysos.Lists.Interchange
import Tysos.Lists.QueueLaws
import Tysos.Task.Invisible
import Tysos.Task.Create
import Tysos.Console.Screen
import Tysos.Boot.Bounds
import Tysos.Format.NumToStr
import Tysos.Format.FormatString
import Tysos.Format.Returned
import Tysos.Format.IntoString
import Tysos.Format.ReversibleString
import Tysos.Stdclib.Strings
import Tysos.Lists.Enumerators
import Tysos.Lists.CopyTo
import Tysos.Memory.Classifiers
import Tysos.Lists.Invariant
import Tysos.Lists.ArrayBounds
import Tysos.Interrupts.Delivery
import Tysos.Interrupts.Handlers
import Tysos.Interrupts.Ticks
import Tysos.Console.Dump
import Tysos.Boot.Start
