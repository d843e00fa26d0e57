import Aufs.Disk
import Aufs.Kern.Dir
import Aufs.Kern.DirPages
import Aufs.Kern.File
import Aufs.Kern.Getattr
import Aufs.Kern.Inode
import Aufs.Kern.MapBits
import Aufs.Kern.Module
import Aufs.Kern.Mount
import Aufs.Kern.Namei
import Aufs.Kern.PageCache
import Aufs.Lib.AddressMap
import Aufs.Lib.Bytes
import Aufs.Lib.LabelTree
import Aufs.Lib.OrderedMap
import Aufs.Lib.Trace
import Aufs.Lib.Word
import Aufs.Lib.WriteBack
import Aufs.Mkfs.BitIterator
import Aufs.Mkfs.BlocksCache
import Aufs.Mkfs.FormatLemmas
import Aufs.Verify.Accounting
import Aufs.Verify.Allocators
import Aufs.Verify.Arguments
import Aufs.Verify.BitMoves
import Aufs.Verify.BlocksCache
import Aufs.Verify.ByteOrder
import Aufs.Verify.Crash
import Aufs.Verify.DirPages
import Aufs.Verify.Directory
import Aufs.Verify.Divisors
import Aufs.Verify.Entries
import Aufs.Verify.FailedCreate
import Aufs.Verify.FileData
import Aufs.Verify.GetBlock
import Aufs.Verify.Getattr
import Aufs.Verify.InodeCache
import Aufs.Verify.InodeCodec
import Aufs.Verify.InodeTable
import Aufs.Verify.Layout
import Aufs.Verify.LinkCounts
import Aufs.Verify.Listings
import Aufs.Verify.Main
import Aufs.Verify.MapBits
import Aufs.Verify.MapSearch
import Aufs.Verify.MappedBlocks
import Aufs.Verify.MappingRace
import Aufs.Verify.Module
import Aufs.Verify.Mount
import Aufs.Verify.NameSpace
import Aufs.Verify.PageData
import Aufs.Verify.ParseArgs
import Aufs.Verify.PathData
import Aufs.Verify.ReadEffects
import Aufs.Verify.Readdir
import Aufs.Verify.ReaddirErrors
import Aufs.Verify.Reformat
import Aufs.Verify.Remount
import Aufs.Verify.Unwritten
import Aufs.Verify.Writeback
import Aufs.Verify.ZoneAddresses
