import AudioPlayer.Spec.Log
import Mathlib.Data.Finset.Basic

/-!
# The disk driver and its device (`kernel/virtio_disk.c`)

The driver tells the device about a request with a chain of three descriptors, whose head
it puts into the available ring; the device answers with the head of the chain in the used
ring. The indices of the rings are 16 bits wide and never reset.

The steps are those that `vdisk_lock` makes atomic: `virtio_disk_rw` up to its wait for the
device, the rest of it, and a pass of the loop in `virtio_disk_intr`. Between them the
device takes entries from the available ring and posts them to the used ring.
-/

namespace AudioPlayer

open Function

/-- `NUM` of `kernel/virtio.h`. -/
abbrev num : ℕ := 8

/-- The values of a `uint16`. -/
abbrev idxMod : ℕ := 2 ^ 16

/-- `VRING_DESC_F_NEXT`. -/
abbrev vringDescFNext : ℕ := 1

/-- `VRING_DESC_F_WRITE`. -/
abbrev vringDescFWrite : ℕ := 2

/-- What the address of a descriptor points to. -/
inductive Addr
  | null
  /-- `&disk.ops[i]` -/
  | op (i : ℕ)
  /-- `b->data` -/
  | data (b : ℕ)
  /-- `&disk.info[i].status` -/
  | status (i : ℕ)
deriving DecidableEq

/-- `struct virtq_desc`. -/
structure VirtqDesc where
  addr : Addr
  len : ℕ
  flags : ℕ
  next : ℕ

/-- `struct virtio_blk_req`. -/
structure VirtioBlkReq where
  type : ℕ
  reserved : ℕ
  sector : ℕ

/-- An entry of `disk.info`. -/
structure InFlight where
  b : Option ℕ
  status : UInt8

/-- A call of `virtio_disk_rw` that waits for the device: its buffer and its `idx`. -/
structure DiskReq where
  b : ℕ
  idx : List ℕ
deriving DecidableEq

/-- `struct disk` with the rings in its pages, `b->disk` of each buffer, the waiting calls,
and the device: `lastAvail` is its index into the available ring, `taken` are the heads it
has taken and not posted yet. -/
structure VirtioDisk where
  desc : ℕ → VirtqDesc
  availIdx : ℕ
  availRing : ℕ → ℕ
  usedRingIdx : ℕ
  usedRing : ℕ → ℕ
  free : ℕ → Bool
  usedIdx : ℕ
  info : ℕ → InFlight
  ops : ℕ → VirtioBlkReq
  bufDisk : ℕ → Bool
  reqs : List DiskReq
  lastAvail : ℕ
  taken : List ℕ
  panic : Option String

namespace VirtioDisk

/-! ## Descriptors -/

/-- `alloc_desc`. -/
def allocDesc (s : VirtioDisk) : Option (VirtioDisk × ℕ) :=
  ((List.range num).find? fun i => s.free i).map fun i =>
    ({ s with free := update s.free i false }, i)

/-- `free_desc`. -/
def freeDesc (s : VirtioDisk) (i : ℕ) : VirtioDisk :=
  if s.panic.isSome then s
  else if i ≥ num then { s with panic := some "free_desc 1" }
  else if s.free i then { s with panic := some "free_desc 2" }
  else
    { s with
      desc := update s.desc i ⟨.null, 0, 0, 0⟩
      free := update s.free i true }

/-- `free_chain`. A pass frees a descriptor or panics, so there are at most `NUM + 1`. -/
def freeChain : ℕ → VirtioDisk → ℕ → VirtioDisk
  | 0, s, _ => { s with panic := some "free_chain" }
  | fuel + 1, s, i =>
    let flag := (s.desc i).flags
    let nxt := (s.desc i).next
    let s := s.freeDesc i
    if flag &&& vringDescFNext ≠ 0 then freeChain fuel s nxt else s

/-- The loop of `alloc3_desc`: `n` more descriptors after those in `idx`, which are given
back if there are not enough. -/
def allocLoop : ℕ → VirtioDisk → List ℕ → VirtioDisk × Option (List ℕ)
  | 0, s, idx => (s, some idx)
  | n + 1, s, idx =>
    match s.allocDesc with
    | none => (idx.foldl freeDesc s, none)
    | some (s, i) => allocLoop n s (idx ++ [i])

/-- `alloc3_desc`. -/
def alloc3Desc (s : VirtioDisk) : VirtioDisk × Option (List ℕ) := allocLoop 3 s []

/-! ## Requests -/

/-- The three descriptors of a request. -/
def formatDescs (desc : ℕ → VirtqDesc) (idx0 idx1 idx2 b : ℕ) (write : Bool) : ℕ → VirtqDesc :=
  let flags1 := (if write then 0 else vringDescFWrite) ||| vringDescFNext
  let desc := update desc idx0 ⟨.op idx0, 16, vringDescFNext, idx1⟩
  let desc := update desc idx1 ⟨.data b, bsize, flags1, idx2⟩
  update desc idx2 ⟨.status idx0, 1, vringDescFWrite, 0⟩

/-- `virtio_disk_rw` once it has its descriptors, up to its wait for the device. -/
def submit (s : VirtioDisk) (idx0 idx1 idx2 b blockno : ℕ) (write : Bool) : VirtioDisk :=
  { s with
    ops := update s.ops idx0 ⟨if write then 1 else 0, 0, blockno * (bsize / 512) % 2 ^ 32⟩
    desc := formatDescs s.desc idx0 idx1 idx2 b write
    info := update s.info idx0 ⟨some b, 0xff⟩
    bufDisk := update s.bufDisk b true
    availRing := update s.availRing (s.availIdx % num) idx0
    availIdx := (s.availIdx + 1) % idxMod
    reqs := ⟨b, [idx0, idx1, idx2]⟩ :: s.reqs }

/-- A pass of the first loop of `virtio_disk_rw`: the call goes to sleep, or it has its
descriptors and tells the device. -/
def rw (s : VirtioDisk) (b blockno : ℕ) (write : Bool) : VirtioDisk :=
  match s.alloc3Desc with
  | (s, some [idx0, idx1, idx2]) => s.submit idx0 idx1 idx2 b blockno write
  | (s, _) => s

/-- The end of `virtio_disk_rw`, for a call whose buffer the disk is done with. -/
def finish (s : VirtioDisk) (r : DiskReq) : VirtioDisk :=
  let idx0 := r.idx.headD 0
  let s := { s with
    info := update s.info idx0 { s.info idx0 with b := none }
    reqs := s.reqs.erase r }
  freeChain (num + 1) s idx0

/-- A pass of the loop in `virtio_disk_intr`. -/
def intr (s : VirtioDisk) : VirtioDisk :=
  let id := s.usedRing (s.usedIdx % num)
  if (s.info id).status ≠ 0 then { s with panic := some "virtio_disk_intr status" }
  else
    match (s.info id).b with
    | none => { s with panic := some "store to b->disk with b = 0" }
    | some b =>
      { s with
        bufDisk := update s.bufDisk b false
        usedIdx := (s.usedIdx + 1) % idxMod }

/-! ## The device -/

/-- The device takes an entry from the available ring. -/
def take (s : VirtioDisk) : VirtioDisk :=
  { s with
    lastAvail := (s.lastAvail + 1) % idxMod
    taken := s.availRing (s.lastAvail % num) :: s.taken }

/-- The device writes status 0 to where the last descriptor of chain `id` points, and posts
the chain. -/
def post (s : VirtioDisk) (id : ℕ) : VirtioDisk :=
  let last := (s.desc (s.desc id).next).next
  let info :=
    match (s.desc last).addr with
    | .status i => update s.info i { s.info i with status := 0 }
    | _ => s.info
  { s with
    info := info
    usedRing := update s.usedRing (s.usedRingIdx % num) id
    usedRingIdx := (s.usedRingIdx + 1) % idxMod
    taken := s.taken.erase id }

end VirtioDisk

inductive DiskStep
  /-- a call on buffer `b`, which no other call holds, looks for descriptors -/
  | rw (b blockno : ℕ) (write : Bool)
  /-- the call on buffer `b` finds that the disk is done with it -/
  | finish (b : ℕ)
  | intr
  | take
  | post (id : ℕ)

/-- One step, `none` where it cannot be made. -/
def VirtioDisk.step (s : VirtioDisk) (a : DiskStep) : Option VirtioDisk :=
  if s.panic.isSome then none
  else
    match a with
    | .rw b blockno write => if b ∈ s.reqs.map (·.b) then none else some (s.rw b blockno write)
    | .finish b =>
      if s.bufDisk b then none else (s.reqs.find? (·.b = b)).map fun r => s.finish r
    | .intr => if s.usedIdx = s.usedRingIdx then none else some s.intr
    | .take => if s.lastAvail = s.availIdx then none else some s.take
    | .post id => if id ∈ s.taken then some (s.post id) else none

/-- `virtio_disk_init`. The pages are zeroed, the rest of `disk` is too. -/
def VirtioDisk.init : VirtioDisk where
  desc := fun _ => ⟨.null, 0, 0, 0⟩
  availIdx := 0
  availRing := fun _ => 0
  usedRingIdx := 0
  usedRing := fun _ => 0
  free := fun i => i < num
  usedIdx := 0
  info := fun _ => ⟨none, 0⟩
  ops := fun _ => ⟨0, 0, 0⟩
  bufDisk := fun _ => false
  reqs := []
  lastAvail := 0
  taken := []
  panic := none

end AudioPlayer
