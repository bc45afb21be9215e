import Octiron.Found.Bits
import Octiron.Found.Chain
import Octiron.Found.Extents
import Octiron.Found.Memory
import Octiron.Found.Nesting
import Octiron.Found.Pages
import Octiron.Kzadhbat.Bitmacros
import Octiron.Kzadhbat.Error
import Octiron.Kzadhbat.Slab
import Octiron.Kzadhbat.SlabRuns
import Octiron.Kzadhbat.Bump
import Octiron.Kernel.Paging
import Octiron.Kernel.PageEntries
import Octiron.Kernel.PageTables
import Octiron.Kernel.PageRuns
import Octiron.Kernel.Translate
import Octiron.Kernel.Pmm
import Octiron.Kernel.PmmDescriptors
import Octiron.Kernel.PmmRuns
import Octiron.Kernel.PmmRegions
import Octiron.Kernel.PmmPartition
import Octiron.Kernel.Array
import Octiron.Kernel.DeviceTree
import Octiron.Kernel.DeviceTokens
import Octiron.Kernel.DeviceGrammar
import Octiron.Kernel.DeviceBlob
import Octiron.Kernel.DeviceHeap
import Octiron.Kernel.DeviceParse
import Octiron.Kernel.PmmFailures
import Octiron.Kernel.PmmPages
import Octiron.Kernel.PmmRemoval
import Octiron.Kzadhbat.BumpRuns
import Octiron.Kzadhbat.SlabOwners
import Octiron.Found.Loops
import Octiron.Kernel.IdentityMap
import Octiron.Kernel.Reservations
import Octiron.Kernel.DeviceRewrite
import Octiron.Kernel.DeviceArrays
import Octiron.Kernel.DeviceMapping
import Octiron.Kernel.PageCalls
import Octiron.Kernel.PmmFirstFit
import Octiron.Kernel.PmmRequests
import Octiron.Kernel.PmmCoverage
import Octiron.Kernel.PmmVerdicts
import Octiron.Kernel.DeviceSafety
import Octiron.Found.Bytes
import Octiron.Kzadhbat.Endian
import Octiron.Kernel.DeviceCells
import Octiron.Kzadhbat.FmtFormat
import Octiron.Kernel.DeviceStrings
import Octiron.Kernel.ArrayMemory
import Octiron.Kernel.PageAliases
import Octiron.Kernel.PageSuperpages
import Octiron.Kernel.DeviceSpace
import Octiron.Kernel.DevicePass
import Octiron.Kernel.DevicePlaces
import Octiron.Kernel.DeviceRanges
import Octiron.Kernel.KernelIdMap
import Octiron.Kernel.Kinit
import Octiron.Kernel.Kmain
import Octiron.Found.EndsAs
import Octiron.Kernel.DeviceBlocks
import Octiron.Kernel.DeviceOrder
import Octiron.Kernel.KernelLoop
import Octiron.Kernel.DeviceGoverned
