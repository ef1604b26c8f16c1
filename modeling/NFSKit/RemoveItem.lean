import NFSKit.Attributes

/-!
# Removing a tree

`removeItem(atPath:)` and `removeDirectoryRecursive(path:)` against an arbitrary server: a state machine
that answers each call as it likes. The recursion is bounded by a number of levels; a run that needs more
of them is unfinished. The calls, and the recursive ones among them, are recorded in order.
-/

namespace NFSKit

open Characters Paths NFSEventLoop

/-- A server. `list` is `opendir` and every `nfs_readdir` until the end of the directory. -/
structure Server (σ : Type) where
  stat : σ → Text → Except POSIXErrorCode NfsStat64 × σ
  list : σ → Text → Except POSIXErrorCode (List Nfsdirent) × σ
  unlink : σ → Text → Except POSIXErrorCode Unit × σ
  rmdir : σ → Text → Except POSIXErrorCode Unit × σ

/-- What `removeItem` does: a call to the server, or to itself for an entry of a directory. -/
inductive RemoveCall where
  | stat (path : Text)
  | list (path : Text)
  | unlink (path : Text)
  | rmdir (path : Text)
  | removeItem (path name fullPath : Text)
deriving DecidableEq, Repr

/-- The server and the calls so far. -/
structure RemoveState (σ : Type) where
  server : σ
  calls : List RemoveCall

/-- How a call ends. `trapped` is a trap of an integer conversion in the listing. -/
inductive RemoveOutcome where
  | returned
  | threw (e : POSIXErrorCode)
  | trapped
  | unfinished
deriving DecidableEq, Repr

namespace NFSClient

variable [Characters] {σ : Type}

/-- A last call whose result is that of the whole. -/
def finishRemoval (answer : Except POSIXErrorCode Unit × σ) (calls : List RemoveCall) :
    RemoveOutcome × RemoveState σ :=
  match answer with
  | (.error e, server) => (.threw e, ⟨server, calls⟩)
  | (.ok (), server) => (.returned, ⟨server, calls⟩)

/-- `!name.contains("/"), name != ".", name != ".."`: none of the characters of the name is a slash. -/
def isRemovable (name : Text) : Bool :=
  ['/'] ∉ characters name ∧ name ≠ ['.'] ∧ name ≠ ['.', '.']

/-- The loop of `removeDirectoryRecursive`, where `remove` is `removeItem(atPath:)`. -/
def removeEntries (remove : Text → RemoveState σ → RemoveOutcome × RemoveState σ) (path : Text) :
    List Attributes → RemoveState σ → RemoveOutcome × RemoveState σ
  | [], s => (.returned, s)
  | item :: items, s =>
    let name := item.nameKey
    if isRemovable name then
      let fullPath := append path name
      match remove fullPath { s with calls := s.calls ++ [.removeItem path name fullPath] } with
      | (.returned, s) => removeEntries remove path items s
      | (outcome, s) => (outcome, s)
    else removeEntries remove path items s

/-- `removeDirectoryRecursive(path:)`. -/
def removeDirectoryRecursive (srv : Server σ)
    (remove : Text → RemoveState σ → RemoveOutcome × RemoveState σ) (path : Text)
    (s : RemoveState σ) : RemoveOutcome × RemoveState σ :=
  let (answer, server) := srv.list s.server path
  let s : RemoveState σ := ⟨server, s.calls ++ [.list path]⟩
  match answer with
  | .error e => (.threw e, s)
  | .ok ents =>
    match readdirAll path ents with
    | none => (.trapped, s)
    | some items =>
      match removeEntries remove path items s with
      | (.returned, s) => finishRemoval (srv.rmdir s.server path) (s.calls ++ [.rmdir path])
      | (outcome, s) => (outcome, s)

/-- `removeItem(atPath:)`, with at most so many levels of recursion. -/
def removeItem (srv : Server σ) : Nat → Text → RemoveState σ → RemoveOutcome × RemoveState σ
  | 0, _, s => (.unfinished, s)
  | levels + 1, path, s =>
    let (answer, server) := srv.stat s.server path
    let s : RemoveState σ := ⟨server, s.calls ++ [.stat path]⟩
    match answer with
    | .error e => (.threw e, s)
    | .ok stat =>
      if stat.nfs_mode &&& S_IFMT = S_IFDIR then
        removeDirectoryRecursive srv (removeItem srv levels) path s
      else finishRemoval (srv.unlink s.server path) (s.calls ++ [.unlink path])

end NFSClient

end NFSKit
