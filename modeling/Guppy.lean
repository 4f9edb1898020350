import Guppy.Lib.Bytes
import Guppy.Lib.Prog
import Guppy.Vdisk.Host
import Guppy.Vdisk.Vdi
import Guppy.Vdisk.VdiSpace
import Guppy.Vdisk.VdiWrite
import Guppy.Vdisk.VdiLoop
import Guppy.Vdisk.VdiImage
import Guppy.Vdisk.VdiFlat
import Guppy.Vdisk.VdiCrash
import Guppy.Vdisk.VdiAccept
import Guppy.Vfs.Path
import Guppy.Pkg.Filter
import Guppy.Vfs.Resolve
import Guppy.Vfs.Contain
import Guppy.Pkg.Install
import Guppy.Pkg.Confine
import Guppy.Ext2.Disk
import Guppy.Ext2.Alloc
import Guppy.Ext2.Ops
import Guppy.Ext2.Fsck
import Guppy.Ext2.Mkfs
import Guppy.Ext2.Handle
import Guppy.Ext2.Access
import Guppy.Ext2.HandleRead
import Guppy.Ext2.Volume
import Guppy.Ext2.Head
import Guppy.Ext2.Take
import Guppy.Ext2.Context
import Guppy.Block.Scan
import Guppy.Block.Open
import Guppy.Block.Range
import Guppy.Block.Gpt
import Guppy.Block.GptRun
import Guppy.Lib.Tarjan
import Guppy.Pkg.Depends
import Guppy.Pkg.Plan
import Guppy.Vfs.Create
import Guppy.Pkg.PlanGraph
import Guppy.Pkg.PlanOrder
import Guppy.Pkg.PlanTarget
import Guppy.Iso.Dir
import Guppy.Iso.Walk
import Guppy.Iso.Listing
import Guppy.Archive.Stream
import Guppy.Archive.Tar
import Guppy.Archive.TarRound
import Guppy.Archive.Ar
import Guppy.Pkg.Control
import Guppy.Lib.Sha256
import Guppy.Account.Crypt
import Guppy.Block.Layout
import Guppy.Block.Number
import Guppy.Ext2.FsckTables
import Guppy.Ext2.FsckLinks
import Guppy.Ext2.Lookup
import Guppy.Iso.Direct
import Guppy.Ext2.Runs
import Guppy.Ext2.Format
import Guppy.Ext2.Fresh
import Guppy.Ext2.Records
import Guppy.Ext2.Readers
import Guppy.Ext2.Bounds
import Guppy.Ext2.Mapping
import Guppy.Ext2.FsckDirs
import Guppy.Ext2.Getdents
import Guppy.Ext2.Readdir
import Guppy.Ext2.Entries
import Guppy.Ext2.FreshVolume
import Guppy.Ext2.DirOps
import Guppy.Ext2.Sound
import Guppy.Ext2.NewNodes
import Guppy.Ext2.DirRun
import Guppy.Vdisk.Inspect
import Guppy.Vdisk.VdiInspect
import Guppy.Vdisk.VdiValid
import Guppy.Lib.BigEndian
import Guppy.Vdisk.Vhd
import Guppy.Lib.PostOrder
import Guppy.Pkg.PlanWalk
import Guppy.Block.Regions
import Guppy.Block.AddOpts
import Guppy.Block.EbrChain
import Guppy.Block.Rescan
import Guppy.Archive.ArMembers
import Guppy.Archive.ArRound
import Guppy.Archive.TarNames
import Guppy.Lib.LexSeq
import Guppy.Pkg.Version
import Guppy.Pkg.Policy
import Guppy.Pkg.DepRender
import Guppy.Pkg.Stanza
import Guppy.Lib.Nesting
import Guppy.Pkg.Postinst
import Guppy.Archive.Inflate
import Guppy.Archive.InflateSafe
import Guppy.Pkg.State
import Guppy.Block.Crc
import Guppy.Account.HashCommand
import Guppy.Vfs.Normalize
import Guppy.Vfs.Tokens
import Guppy.Iso.Susp
import Guppy.Iso.Areas
import Guppy.Iso.Names
import Guppy.Iso.Links
import Guppy.Lib.Traced
import Guppy.Iso.Reads
import Guppy.Fat.Mkfs
import Guppy.Fat.Type
import Guppy.Fat.Layout
import Guppy.Block.AddAny
import Guppy.Lib.LittleEndian
import Guppy.Ntfs.Record
import Guppy.Ntfs.RecordWalk
import Guppy.Ntfs.Mkfs
import Guppy.Ntfs.Records
import Guppy.Ntfs.Volume
import Guppy.Ldconfig.Compare
import Guppy.Ldconfig.Cache
import Guppy.Ldconfig.Conf
import Guppy.Account.Text
import Guppy.Account.Commands
import Guppy.Account.Records
import Guppy.Lib.LineFiles
import Guppy.Pkg.TriggerQueue
import Guppy.Pkg.Triggers
import Guppy.Cli.Dispatch
import Guppy.Cli.Faithful
import Guppy.Lib.Calendar
import Guppy.Iso.Civil
import Guppy.Account.NextUid
import Guppy.Lib.Canonical
import Guppy.Lib.Canonical
import Guppy.Archive.Huffman
import Guppy.Ext2.FsckLinks
import Guppy.Pkg.Repo
import Guppy.Pkg.Build
import Guppy.Lib.LongestPrefix
import Guppy.Vfs.Mounts
import Guppy.Iso.Files
import Guppy.Pkg.Diversions
import Guppy.Archive.Deflate
import Guppy.Archive.Gzip
