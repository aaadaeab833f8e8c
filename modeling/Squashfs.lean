import Squashfs.Error
import Squashfs.Foundation.Memo
import Squashfs.Foundation.Metered
import Squashfs.Foundation.Blocks
import Squashfs.Codec
import Squashfs.DataBlock
import Squashfs.Stored
import Squashfs.DirGrammar
import Squashfs.Xattr
import Squashfs.Fs
import Squashfs.File
import Squashfs.Path
import Squashfs.Addressing
import Squashfs.Cache
import Squashfs.CacheAccounts
import Squashfs.Session
import Squashfs.SizeWord
import Squashfs.Blame
import Squashfs.Listing
import Squashfs.Capi
import Squashfs.Resolution
import Squashfs.AttributeList
import Squashfs.CapiRead
import Squashfs.CapiBuffer
import Squashfs.RecursiveListing
import Squashfs.DecodeOnce
import Squashfs.PointerWidth
import Squashfs.WholeOutput
import Squashfs.CursorStream
import Squashfs.Offsets
import Squashfs.StoredTables
import Squashfs.Layout
import Squashfs.Xz.Reserved
import Squashfs.DirectoryEnd
import Squashfs.Xz.FixedPattern
import Squashfs.Xz.Crc64
import Squashfs.Foundation.Forest
import Squashfs.Foundation.Finish
import Squashfs.Foundation.Oracle
import Squashfs.StoredFile
import Squashfs.Archive
import Squashfs.Tree
import Squashfs.TreeListing
import Squashfs.TreeExport
import Squashfs.CapiFinish
import Squashfs.CapiTree
import Squashfs.CapiProcess
import Squashfs.Publish
