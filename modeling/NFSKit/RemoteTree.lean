import NFSKit.RemoveItem
import NFSKit.Foundations.FileTree

/-!
# A remote file tree

The server that is listed and that `removeItem(atPath:)` works on, as libnfs presents it: `nfs_stat64` and
`opendir` follow a symbolic link at the end of their path, `unlink` and `rmdir` work on the entry itself. A
link on the way is always followed. A call may also fail without an effect, and then nothing else is known
of it.
-/

namespace NFSKit

open Paths Utf8 NFSEventLoop

/-- A name of a file system: bytes, which need not be the encoding of a text. -/
def IsFileName (n : List UInt8) : Prop :=
  n ≠ [] ∧ 0x2F ∉ n ∧ 0 ∉ n ∧ n ≠ [0x2E] ∧ n ≠ [0x2E, 0x2E]

instance (n : List UInt8) : Decidable (IsFileName n) := inferInstanceAs (Decidable (_ ∧ _))

/-- The tree that is mounted. -/
structure RemoteTree extends FileTree (List UInt8) RemoteObject where
  root : RemoteObject
  safe : ∀ x ∈ entries, ∀ n ∈ x.location, IsFileName n
  kinds : ∀ x ∈ entries, (x.kind = .directory ↔ x.data.kind = .directory) ∧
    ((∃ target, x.kind = .link target) ↔ x.data.kind = .symbolicLink)
  root_kind : root.kind = .directory

/-- The names from the root. -/
abbrev Location := List (List UInt8)

/-- The location one up. Above the root there is nothing: no entry has an empty name. -/
def parentLocation (l : Location) : Location :=
  if l = [] ∨ l.head? = some [] then [[]] else l.dropLast

/-- The location that a path denotes; `.` and `..` are worked out in the path. -/
def locationOf (path : Text) : Location :=
  (byteParts path).foldl
    (fun l n => if n = [0x2E] then l else if n = [0x2E, 0x2E] then parentLocation l else l ++ [n]) []

namespace RemoteTree

/-- The object at a location. -/
def objectAt (t : RemoteTree) (p : Location) : Option RemoteObject :=
  if p = [] then some t.root else (t.entries.find? (·.location = p)).map TreeEntry.data

/-- The tree without what is at or below the location. -/
def erase (t : RemoteTree) (p : Location) : RemoteTree where
  toFileTree := t.toFileTree.erase p
  root := t.root
  safe := fun x hx => t.safe x (FileTree.mem_erase.mp hx).1
  kinds := fun x hx => t.kinds x (FileTree.mem_erase.mp hx).1
  root_kind := t.root_kind

/-- `nfs_stat64`, where at most `hops` links are followed on a path. -/
def stat (hops : Nat) (t : RemoteTree) (path : Text) : Except POSIXErrorCode NfsStat64 :=
  match (t.resolve true hops (locationOf path)).bind t.objectAt with
  | some o => .ok o.stat
  | none => .error .ENOENT

/-- `nfs_opendir` and `nfs_readdir` until the end. -/
def list (hops : Nat) (t : RemoteTree) (path : Text) : Except POSIXErrorCode (List Nfsdirent) :=
  match t.resolve true hops (locationOf path) with
  | none => .error .ENOENT
  | some p =>
    if t.kindAt p = some .directory then
      .ok (((t.objectAt p).getD t.root).dirent [0x2E] ::
        ((t.objectAt p.dropLast).getD t.root).dirent [0x2E, 0x2E] ::
          (t.children p).map fun x => x.2.dirent x.1)
    else .error .ENOTDIR

/-- `contentsOfDirectory(atPath:)` on the tree. -/
def listing [Characters] (hops : Nat) (t : RemoteTree) (path : Text) :
    Option (Except POSIXErrorCode (List Attributes)) :=
  NFSClient.contentsOfDirectory (t.list hops path) path

/-- `attributesOfItem(atPath:)` on the tree. -/
def item (hops : Nat) (t : RemoteTree) (path : Text) : Option (Except POSIXErrorCode Attributes) :=
  NFSClient.attributesOfItem (t.stat hops path) path

def unlink (hops : Nat) (t : RemoteTree) (path : Text) : Except POSIXErrorCode Unit × RemoteTree :=
  match t.resolve false hops (locationOf path) with
  | none => (.error .ENOENT, t)
  | some p => if t.kindAt p = some .directory then (.error ⟨21⟩, t) else (.ok (), t.erase p)

def rmdir (hops : Nat) (t : RemoteTree) (path : Text) : Except POSIXErrorCode Unit × RemoteTree :=
  match t.resolve false hops (locationOf path) with
  | none => (.error .ENOENT, t)
  | some p =>
    if p = [] then (.error .EBUSY, t)
    else if t.kindAt p ≠ some .directory then (.error .ENOTDIR, t)
    else if t.names p ≠ [] then (.error .ENOTEMPTY, t)
    else (.ok (), t.erase p)

end RemoteTree

/-- The tree, and which of the next calls fail, and with what error; the calls after them do not fail. -/
structure Remote where
  tree : RemoteTree
  faults : List (Option POSIXErrorCode)

/-- A call that fails does nothing. -/
def Remote.answer {α : Type} (s : Remote) (reply : Except POSIXErrorCode α × RemoteTree) :
    Except POSIXErrorCode α × Remote :=
  match s.faults with
  | [] => (reply.1, ⟨reply.2, []⟩)
  | none :: faults => (reply.1, ⟨reply.2, faults⟩)
  | some e :: faults => (.error e, ⟨s.tree, faults⟩)

/-- libnfs on a remote tree. -/
def remoteServer (hops : Nat) : Server Remote where
  stat s path := s.answer (s.tree.stat hops path, s.tree)
  list s path := s.answer (s.tree.list hops path, s.tree)
  unlink s path := s.answer (s.tree.unlink hops path)
  rmdir s path := s.answer (s.tree.rmdir hops path)

namespace NFSClient

variable [Characters]

/-- `removeItem(atPath:)` on a remote tree. -/
def removeFrom (hops levels : Nat) (s : Remote) (path : Text) : RemoveOutcome × RemoveState Remote :=
  removeItem (remoteServer hops) levels path ⟨s, []⟩

end NFSClient

/-- The location is in the subtree rooted at the path: a link at the end of the path is its root. -/
def RemoteTree.InSubtree (hops : Nat) (t : RemoteTree) (path : Text) (q : Location) : Prop :=
  ∃ p, t.resolve false hops (locationOf path) = some p ∧ p <+: q

/-- What `removeItem(atPath:)` is for: it ends, whatever call fails; it leaves every entry outside the
subtree where it is; and if no call fails, nothing of the subtree is left. -/
structure RemovesSubtree [Characters] (hops : Nat) (t : RemoteTree) (path : Text) : Prop where
  ends : ∀ faults, ∃ levels, (NFSClient.removeFrom hops levels ⟨t, faults⟩ path).1 = .returned ∨
    ∃ e, (NFSClient.removeFrom hops levels ⟨t, faults⟩ path).1 = .threw e
  inside : ∀ faults levels, ∀ x ∈ t.entries, ¬ t.InSubtree hops path x.location →
    x ∈ (NFSClient.removeFrom hops levels ⟨t, faults⟩ path).2.server.tree.entries
  whole : ∀ faults levels, (∀ x ∈ faults, x = none) →
    (NFSClient.removeFrom hops levels ⟨t, faults⟩ path).1 ≠ .unfinished →
      ∀ x ∈ (NFSClient.removeFrom hops levels ⟨t, faults⟩ path).2.server.tree.entries,
        ¬ t.InSubtree hops path x.location

namespace RemoteTree

/-- The tree without the entries of a directory that have these names. -/
def eraseAll (t : RemoteTree) (p : Location) (names : List (List UInt8)) : RemoteTree :=
  names.foldl (fun t n => t.erase (p ++ [n])) t

/-- The tree when the turn of an entry below `p` comes: of each directory on the way, the entries listed
before are gone. -/
def turn (t : RemoteTree) (p : Location) : Location → RemoteTree
  | [] => t
  | n :: rest => (t.eraseAll p ((t.names p).takeWhile (· ≠ n))).turn (p ++ [n]) rest

/-- The path of each entry below is read as that entry: the names are encodings of texts, and nothing is
below a path with a NUL, behind which no name is read. -/
structure Readable (t : RemoteTree) (path : Text) (p : Location) : Prop where
  names : ∀ rest k, t.kindAt (p ++ rest) = some k → ∀ n ∈ rest, IsWellFormed n
  nul : ¬ NulFree path → t.names p = []

/-- What `removeItem(atPath:)` relies on. When the turn of a symbolic link comes, its path leads to
something that exists and is no directory; and every entry that is listed has a size that fits. -/
structure Removable (hops : Nat) (t : RemoteTree) (path : Text) (p : Location) : Prop
    extends Readable t path p where
  links : ∀ rest target, t.kindAt (p ++ rest) = some (.link target) →
    ∃ r, (t.turn p rest).resolve true hops (locationOf path ++ rest) = some r ∧
      (t.turn p rest).kindAt r ≠ some .directory
  sizes : ∀ x ∈ t.entries, FileTree.Below p x.location → x.data.size < 2 ^ 63

end RemoteTree

end NFSKit
