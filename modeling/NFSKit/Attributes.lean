import NFSKit.Foundations.Checked
import NFSKit.Foundations.Paths
import NFSKit.POSIXError

/-!
# File attributes

The two producers of attribute dictionaries, `buildAttributes` (from an `nfs_stat_64`) and `readdirAll`
(from the entries of a directory), and the other places that convert what a server reports. A number of
a server is the integer it stands for; a conversion that traps has no result. The name of an entry is its
bytes, up to the first NUL; in the dictionaries it is a text.
-/

namespace NFSKit

open Checked Paths Utf8

/-- The fields of `nfs_stat_64` that are read. -/
structure NfsStat64 where
  nfs_mode : Nat
  nfs_nlink : Nat
  nfs_uid : Nat
  nfs_gid : Nat
  nfs_size : Nat
  nfs_atime : Nat
  nfs_mtime : Nat
  nfs_ctime : Nat
  nfs_atime_nsec : Nat
  nfs_mtime_nsec : Nat
  nfs_ctime_nsec : Nat
deriving DecidableEq, Repr

/-- A C `timeval`. -/
structure Timeval where
  tv_sec : Int
  tv_usec : Int
deriving DecidableEq, Repr

/-- The fields of `nfsdirent` that are read. -/
structure Nfsdirent where
  name : List UInt8
  type : Nat
  size : Nat
  nlink : Nat
  atime : Timeval
  mtime : Timeval
  ctime : Timeval
deriving DecidableEq, Repr

def S_IFMT : Nat := 0o170000
def S_IFREG : Nat := 0o100000
def S_IFDIR : Nat := 0o040000
def S_IFLNK : Nat := 0o120000

def NF3REG : Nat := 1
def NF3DIR : Nat := 2
def NF3LNK : Nat := 5

inductive URLFileResourceType where
  | regular
  | directory
  | symbolicLink
  | unknown
deriving DecidableEq, Repr

/-- A `[URLResourceKey: Any]` of the two producers, one field for each key. -/
structure Attributes where
  nameKey : Text
  pathKey : Text
  fileSizeKey : Int
  linkCountKey : Nat
  fileResourceTypeKey : URLFileResourceType
  isRegularFileKey : Bool
  isDirectoryKey : Bool
  isSymbolicLinkKey : Bool
  contentModificationDateKey : Rat
  contentAccessDateKey : Rat
  creationDateKey : Rat
deriving DecidableEq

/-- `Date(timespec(tv_sec:tv_nsec:))`. -/
def date (tv_sec tv_nsec : Int) : Rat := tv_sec + tv_nsec / 1000000000

/-- `Date(timespec(tv_sec: Int(sec), tv_nsec: Int(nsec)))` of two fields of an `nfs_stat_64`. -/
def statDate (sec nsec : Nat) : Option Rat := do
  let sec ← IntType.int64.convert sec
  let nsec ← IntType.int64.convert nsec
  some (date sec nsec)

/-- `Date(timespec(tv_sec: Int(tv.tv_sec), tv_nsec: Int(tv.tv_usec) * 1000))`. -/
def timevalDate (tv : Timeval) : Option Rat := do
  let sec ← IntType.int64.convert tv.tv_sec
  let usec ← IntType.int64.convert tv.tv_usec
  let nsec ← IntType.int64.mul usec 1000
  some (date sec nsec)

namespace NFSClient

/-- The type keys that `buildAttributes` derives from the mode bits. -/
def resourceTypeOfMode (nfs_mode : Nat) : URLFileResourceType :=
  let mode := nfs_mode &&& S_IFMT
  if mode = S_IFREG then .regular
  else if mode = S_IFDIR then .directory
  else if mode = S_IFLNK then .symbolicLink
  else .unknown

/-- The keys that both producers set from a name, a path, the counts, the type and the dates. -/
def attributes (name path : Text) (size : Int) (nlink : Nat) (type : URLFileResourceType)
    (mtime atime ctime : Rat) : Attributes where
  nameKey := name
  pathKey := path
  fileSizeKey := size
  linkCountKey := nlink
  fileResourceTypeKey := type
  isRegularFileKey := type = .regular
  isDirectoryKey := type = .directory
  isSymbolicLinkKey := type = .symbolicLink
  contentModificationDateKey := mtime
  contentAccessDateKey := atime
  creationDateKey := ctime

def buildAttributes (stat : NfsStat64) (path : Text) : Option Attributes := do
  let name := lastComponent path
  let size ← IntType.int64.convert stat.nfs_size
  let mtime ← statDate stat.nfs_mtime stat.nfs_mtime_nsec
  let atime ← statDate stat.nfs_atime stat.nfs_atime_nsec
  let ctime ← statDate stat.nfs_ctime stat.nfs_ctime_nsec
  some (attributes name path size stat.nfs_nlink (resourceTypeOfMode stat.nfs_mode) mtime atime ctime)

/-- `attributesOfItem(atPath:)`, given what `nfs_stat64` answers. -/
def attributesOfItem (stat : Except POSIXErrorCode NfsStat64) (path : Text) :
    Option (Except POSIXErrorCode Attributes) :=
  match stat with
  | .error e => some (.error e)
  | .ok stat => (buildAttributes stat path).map .ok

/-- The two conversions of `connect(export:)`, after the mount, given what `nfs_stat64` answers for the
root: the identifiers that are set. -/
def connectIdentifiers (stat : Except POSIXErrorCode NfsStat64) :
    Option (Except POSIXErrorCode (Int × Int)) :=
  match stat with
  | .error e => some (.error e)
  | .ok stat => do
    let uid ← IntType.int32.convert stat.nfs_uid
    let gid ← IntType.int32.convert stat.nfs_gid
    some (.ok (uid, gid))

/-- `let fileSize = Int64(stat.nfs_size)` of `contents(atPath:progress:)`, given what `nfs_fstat64`
answers. -/
def contentsFileSize (fstat : Except POSIXErrorCode NfsStat64) : Option (Except POSIXErrorCode Int) :=
  match fstat with
  | .error e => some (.error e)
  | .ok stat => (IntType.int64.convert stat.nfs_size).map .ok

end NFSClient

namespace NFSEventLoop

open NFSClient

/-- The type keys of an entry. -/
def resourceTypeOfEntry (type : Nat) : URLFileResourceType :=
  if type = NF3REG then .regular
  else if type = NF3DIR then .directory
  else if type = NF3LNK then .symbolicLink
  else .unknown

/-- The body of the loop of `readdirAll`, for an entry that is not skipped. -/
def entryAttributes [Characters] (path : Text) (ent : Nfsdirent) : Option Attributes := do
  let name := ofCString ent.name
  let size ← IntType.int64.convert ent.size
  let mtime ← timevalDate ent.mtime
  let atime ← timevalDate ent.atime
  let ctime ← timevalDate ent.ctime
  some (attributes name (append path name) size ent.nlink (resourceTypeOfEntry ent.type)
    mtime atime ctime)

/-- `name != "." && name != ".."`. -/
def isListed (name : Text) : Bool := name ≠ ['.'] ∧ name ≠ ['.', '.']

/-- `readdirAll(dirPtr:path:)`, over the entries that `nfs_readdir` returns. -/
def readdirAll [Characters] (path : Text) : List Nfsdirent → Option (List Attributes)
  | [] => some []
  | ent :: ents =>
    if isListed (ofCString ent.name) then do
      let dic ← entryAttributes path ent
      let entries ← readdirAll path ents
      some (dic :: entries)
    else readdirAll path ents

end NFSEventLoop

/-- `contentsOfDirectory(atPath:)`, given what `opendir` answers, with the entries up to the end. -/
def NFSClient.contentsOfDirectory [Characters] (opendir : Except POSIXErrorCode (List Nfsdirent))
    (path : Text) : Option (Except POSIXErrorCode (List Attributes)) :=
  match opendir with
  | .error e => some (.error e)
  | .ok ents => (NFSEventLoop.readdirAll path ents).map .ok

/-! ## What libnfs reports

The fields libnfs fills in from the attributes of a remote object, which are 32-bit numbers but for the
size.
-/

/-- The bounds of the protocol. -/
structure NfsStat64.FromServer (stat : NfsStat64) : Prop where
  uid : stat.nfs_uid < 2 ^ 32
  gid : stat.nfs_gid < 2 ^ 32
  size : stat.nfs_size < 2 ^ 64
  atime : stat.nfs_atime < 2 ^ 32 ∧ stat.nfs_atime_nsec < 2 ^ 32
  mtime : stat.nfs_mtime < 2 ^ 32 ∧ stat.nfs_mtime_nsec < 2 ^ 32
  ctime : stat.nfs_ctime < 2 ^ 32 ∧ stat.nfs_ctime_nsec < 2 ^ 32

/-- A time of the protocol. -/
structure Nfstime where
  seconds : Nat
  nseconds : Nat
  seconds_lt : seconds < 2 ^ 32
  nseconds_lt : nseconds < 2 ^ 32

def Nfstime.epoch : Nfstime := ⟨0, 0, Nat.two_pow_pos 32, Nat.two_pow_pos 32⟩

/-- The `timeval` of a time: microseconds. -/
def Nfstime.timeval (t : Nfstime) : Timeval := ⟨t.seconds, (t.nseconds / 1000 : Nat)⟩

/-- The bounds of the protocol. -/
structure Nfsdirent.FromServer (ent : Nfsdirent) : Prop where
  size : ent.size < 2 ^ 64
  atime : ∃ t : Nfstime, ent.atime = t.timeval
  mtime : ∃ t : Nfstime, ent.mtime = t.timeval
  ctime : ∃ t : Nfstime, ent.ctime = t.timeval

inductive FileKind where
  | regular
  | directory
  | blockDevice
  | characterDevice
  | symbolicLink
  | socket
  | fifo
deriving DecidableEq, Repr

/-- The `ftype3` of the protocol. -/
def FileKind.ftype3 : FileKind → Nat
  | .regular => NF3REG
  | .directory => NF3DIR
  | .blockDevice => 3
  | .characterDevice => 4
  | .symbolicLink => NF3LNK
  | .socket => 6
  | .fifo => 7

/-- The file type bits of a mode. -/
def FileKind.modeBits : FileKind → Nat
  | .regular => S_IFREG
  | .directory => S_IFDIR
  | .blockDevice => 0o060000
  | .characterDevice => 0o020000
  | .symbolicLink => S_IFLNK
  | .socket => 0o140000
  | .fifo => 0o010000

/-- An object of the server. -/
structure RemoteObject where
  kind : FileKind
  permissions : Nat
  permissions_lt : permissions < 2 ^ 12
  nlink : Nat
  uid : Nat
  gid : Nat
  size : Nat
  atime : Nfstime
  mtime : Nfstime
  ctime : Nfstime

def RemoteObject.stat (o : RemoteObject) : NfsStat64 where
  nfs_mode := o.kind.modeBits ||| o.permissions
  nfs_nlink := o.nlink
  nfs_uid := o.uid
  nfs_gid := o.gid
  nfs_size := o.size
  nfs_atime := o.atime.seconds
  nfs_mtime := o.mtime.seconds
  nfs_ctime := o.ctime.seconds
  nfs_atime_nsec := o.atime.nseconds
  nfs_mtime_nsec := o.mtime.nseconds
  nfs_ctime_nsec := o.ctime.nseconds

def RemoteObject.dirent (o : RemoteObject) (name : List UInt8) : Nfsdirent where
  name := name
  type := o.kind.ftype3
  size := o.size
  nlink := o.nlink
  atime := o.atime.timeval
  mtime := o.mtime.timeval
  ctime := o.ctime.timeval

end NFSKit
