import Congine.Infrastructure.HttpContractRepository
/-!
# Saves and loads of one snapshot

`save_snapshot` writes its document to a file of its own beside the
snapshot and moves it to the snapshot's place; `load_snapshot` opens what
stands there and reads it piece by piece. Any number of calls of either, of
any number of processes, are each at a statement of their own. Every
statement may fail, and a process may die between any two. The lock is
advisory: only saves take it, and where `portalocker` is missing none does.

The text of a document and its parse are parameters. What a machine that
loses its power leaves on the disk, and a lock that cannot be let go, are
left out; a `stat` fails where there is nothing, and nowhere else.
-/

namespace Congine

/-- What the processes run on. -/
structure SnapshotSite where
  /-- `_PORTALOCKER_AVAILABLE`. -/
  portalocker : Bool
  /-- `os.name == "posix"`. -/
  posix : Bool
  /-- What `json.dump` writes, encoded. -/
  dump : Json → List UInt8
  /-- `json.load`, decoding included. -/
  load : List UInt8 → Except Exc Json

/-- What stands at the snapshot path. Files are known by number, and a file
by whether it is the current user's. -/
inductive SnapshotPath where
  | absent
  | symlink (target : Option (ℕ × Bool))
  | file (inode : ℕ) (own : Bool)

namespace SnapshotPath

def isSymlink : SnapshotPath → Bool
  | symlink _ => true
  | _ => false

/-- The file the path leads to. -/
def target : SnapshotPath → Option (ℕ × Bool)
  | absent => none
  | symlink target => target
  | file inode own => some (inode, own)

end SnapshotPath

/-- Where a call of `save_snapshot` or of `load_snapshot` stands. A save
that is over may have left a file behind. -/
inductive SnapshotCall where
  /-- `os.makedirs` and `os.chmod`. -/
  | makingDir (snapshot : Json)
  | acquiring (snapshot : Json)
  -- Under the lock, where there is one.
  | creating (snapshot : Json)
  | dumping (snapshot : Json) (temp : ℕ) (written : ℕ)
  | replacing (snapshot : Json) (temp : ℕ)
  /-- In the handler. -/
  | discarding (snapshot : Json) (temp : ℕ) (exc : Exc)
  | releasing (snapshot : Json) (outcome : SaveOutcome) (left : Option ℕ)
  | saved (snapshot : Json) (outcome : SaveOutcome) (left : Option ℕ)
  /-- `os.path.islink`. -/
  | looking
  /-- `_owned_by_current_user`. -/
  | stating
  | opening
  | reading (inode : ℕ) (text : List UInt8)
  | loaded (result : Except Exc (Option (List Json)))
  | killed (left : Option ℕ)

namespace SnapshotCall

/-- The call may hold the lock. -/
def inside : SnapshotCall → Bool
  | creating _ | dumping .. | replacing .. | discarding .. | releasing .. => true
  | _ => false

def ended : SnapshotCall → Bool
  | saved .. | loaded _ | killed _ => true
  | _ => false

/-- The call is one of `load_snapshot`. -/
def loads : SnapshotCall → Bool
  | looking | stating | opening | reading .. => true
  | _ => false

/-- The file of its own that the call has not moved or removed. -/
def temp? : SnapshotCall → Option ℕ
  | dumping _ temp _ | replacing _ temp | discarding _ temp _ => some temp
  | releasing _ _ left | saved _ _ left | killed left => left
  | _ => none

end SnapshotCall

structure SnapshotDir where
  /-- What the files hold, by number. -/
  inodes : List (List UInt8) := []
  path : SnapshotPath := .absent
  /-- The files under names `mkstemp` made. -/
  temps : List ℕ := []
  lock : Option ℕ := none
  calls : List SnapshotCall := []

/-- How a statement ends. -/
inductive Turn where
  /-- It goes through; a write or a read moves so many bytes. -/
  | passes (bytes : ℕ)
  | fails (exc : Exc)
  /-- The lock is not to be had in time. -/
  | timesOut

inductive SnapshotEvent where
  | save (contracts : List Json) (fetchedAt : String)
  | load
  | advance (call : ℕ) (turn : Turn)
  /-- The process of the call dies. -/
  | kill (call : ℕ)

/-- The snapshot file of a text. -/
def SnapshotSite.fileOf (site : SnapshotSite) (text : List UInt8) : SnapshotFile :=
  match site.load text with
  | .ok snapshot => .decoded snapshot
  | .error exc => .unreadable exc

namespace SnapshotDir

def contentOf (s : SnapshotDir) (inode : ℕ) : List UInt8 := s.inodes[inode]?.getD []

def setCall (s : SnapshotDir) (i : ℕ) (call : SnapshotCall) : SnapshotDir :=
  { s with calls := s.calls.set i call }

variable (site : SnapshotSite)

/-- A file on the way from the path is another user's. -/
def isForeign (path : SnapshotPath) : Bool := path.target.any fun file => site.posix && !file.2

/-- What stands at the path, as a load finds it. -/
def file (s : SnapshotDir) : SnapshotFile :=
  match s.path with
  | .absent => .absent
  | .symlink _ => .symlink
  | .file inode own =>
      if isForeign site (.file inode own) then .foreign else site.fileOf (s.contentOf inode)

/-- The next statement of a save. -/
def advanceSave (i : ℕ) (turn : Turn) (s : SnapshotDir) : SnapshotCall → SnapshotDir
  | .makingDir snapshot =>
      match turn with
      | .fails exc => s.setCall i (.saved snapshot (.failed exc) none)
      | _ => s.setCall i (.acquiring snapshot)
  | .acquiring snapshot =>
      if !site.portalocker then s.setCall i (.creating snapshot)
      else
        match turn with
        | .fails exc => s.setCall i (.saved snapshot (.failed exc) none)
        | .timesOut => s.setCall i (.saved snapshot .lockBusy none)
        | .passes _ =>
            if s.lock.isSome then s
            else { s.setCall i (.creating snapshot) with lock := some i }
  | .creating snapshot =>
      match turn with
      | .fails exc => s.setCall i (.releasing snapshot (.failed exc) none)
      | _ =>
          { s.setCall i (.dumping snapshot s.inodes.length 0) with
            inodes := s.inodes ++ [[]]
            temps := s.temps ++ [s.inodes.length] }
  | .dumping snapshot temp written =>
      match turn with
      | .fails exc => s.setCall i (.discarding snapshot temp exc)
      | .timesOut => s
      | .passes bytes =>
          -- Once all is written the file is closed.
          if (site.dump snapshot).length ≤ written then s.setCall i (.replacing snapshot temp)
          else
            { s.setCall i (.dumping snapshot temp (written + bytes)) with
              inodes := s.inodes.set temp ((site.dump snapshot).take (written + bytes)) }
  | .replacing snapshot temp =>
      match turn with
      | .fails exc => s.setCall i (.discarding snapshot temp exc)
      | _ =>
          { s.setCall i (.releasing snapshot .written none) with
            path := .file temp true
            temps := s.temps.filter (· ≠ temp) }
  | .discarding snapshot temp exc =>
      match turn with
      -- What `unlink` raises takes the place of what was being handled.
      | .fails exc' => s.setCall i (.releasing snapshot (.failed exc') (some temp))
      | _ =>
          { s.setCall i (.releasing snapshot (.failed exc) none) with
            temps := s.temps.filter (· ≠ temp) }
  | .releasing snapshot outcome left =>
      { s.setCall i (.saved snapshot outcome left) with lock := none }
  | _ => s

/-- The next statement of a load. -/
def advanceLoad (i : ℕ) (turn : Turn) (s : SnapshotDir) : SnapshotCall → SnapshotDir
  | .looking => s.setCall i (if s.path.isSymlink then .loaded (.ok none) else .stating)
  | .stating => s.setCall i (if isForeign site s.path then .loaded (.ok none) else .opening)
  | .opening =>
      match turn, s.path.target with
      | .passes _, some (inode, _) => s.setCall i (.reading inode [])
      -- A file is opened and read, or an `OSError` is raised.
      | .fails (.osError _), _ | .passes _, none => s.setCall i (.loaded (.ok none))
      | _, _ => s
  | .reading inode text =>
      match turn with
      | .passes bytes =>
          match (s.contentOf inode).drop text.length with
          | [] => s.setCall i (.loaded (loadSnapshot (site.fileOf text)))
          | rest => s.setCall i (.reading inode (text ++ rest.take bytes))
      | .fails (.osError _) => s.setCall i (.loaded (.ok none))
      | _ => s
  | _ => s

/-- The process of the call dies, and a lock it holds is let go. -/
def kill (i : ℕ) (s : SnapshotDir) (call : SnapshotCall) : SnapshotDir :=
  if call.ended then s
  else
    { s.setCall i (.killed call.temp?) with lock := if s.lock = some i then none else s.lock }

def step : SnapshotEvent → SnapshotDir → SnapshotDir
  | .save contracts fetchedAt, s =>
      { s with calls := s.calls ++ [.makingDir (snapshotEnvelope contracts fetchedAt)] }
  | .load, s => { s with calls := s.calls ++ [.looking] }
  | .advance i turn, s =>
      match s.calls[i]? with
      | none => s
      | some call =>
          if call.loads then advanceLoad site i turn s call else advanceSave site i turn s call
  | .kill i, s => (s.calls[i]?).elim s (kill i s)

end SnapshotDir

end Congine
