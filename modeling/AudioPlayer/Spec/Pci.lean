import Mathlib.Algebra.GroupWithZero.Nat
import AudioPlayer.Lib.Links
import AudioPlayer.Lib.Blocks

/-!
# The sound driver (`kernel/pci.c`, `kernel/pci.h`)

The state the driver and the system calls share: the three sound nodes, the fill
position, the queue of nodes under DMA, the buffer descriptor list and the bus
master registers of the AC'97 controller.

A node is named by its index in `sound_buffer`: `add_sound_node` is only ever
given the address of one of its entries. `Layout` holds the addresses the linker
gives the two static arrays. The registers of the codec are in `Spec/Codec.lean`.

`Kernel.stores` is a ghost: it records the stores that `sys_writeDecodedAudio`
makes into the data of a node, with whether the node was on the queue at that
moment. No function reads it.
-/

namespace AudioPlayer

open Links Blocks

abbrev dmaBufferNum : ℕ := 32

abbrev dmaSampleNum : ℕ := 1024

abbrev dmaBufferSize : ℕ := dmaSampleNum * 2

/-- `BUFFER_NODE_NUM` of `kernel/sound_card.c`. -/
abbrev bufferNodeNum : ℕ := 3

/-- The size of `data` in `struct sound_node`. -/
abbrev dataSize : ℕ := dmaBufferSize * dmaBufferNum

abbrev NodeId := Fin bufferNodeNum

instance : NeZero bufferNodeNum := ⟨Nat.succ_ne_zero 2⟩

/-- The bytes of a node: enough to fill the whole descriptor table. -/
abbrev Data := List.Vector UInt8 dataSize

/-- `struct sound_node`. The flag is 0 for a free node, 1 for one that is being
filled and 3 for one that was sent. -/
structure SoundNode where
  flag : UInt8
  next : Option NodeId
  data : Data

/-- What `memset(node, 0, sizeof(struct sound_node))` leaves. -/
def SoundNode.zero : SoundNode := ⟨0, none, pad dataSize 0 []⟩

/-- `struct descriptor`, both fields taken modulo `2 ^ 32`. -/
structure Descriptor where
  bufferPointer : ℕ
  bufferCtrlAndLen : ℕ

/-- The PCM-out registers of the controller, at offset `nabmba`. `bdbar` (0x10) and
`lvi` (0x15) are `none` until they are written after a reset; `cr` is the control
register (0x1b). `pending` is the number of completion interrupts the device may
still raise. -/
structure Device where
  bdbar : Option ℕ
  lvi : Option UInt8
  cr : UInt8
  pending : ℕ

/-- `Write8(PCIE_PIO | (nabmba + 0x1b), v)`: writing 2 resets the registers, and
each write of 5 allows one more completion, which a write of 0 or a reset takes
back. -/
def Device.writeCr (d : Device) (v : UInt8) : Device :=
  if v = 2 then ⟨none, none, 0, 0⟩
  else if v = 5 then { d with cr := 5, pending := d.pending + 1 }
  else if v = 0 then { d with cr := 0, pending := 0 }
  else { d with cr := v }

/-- The device raises one of the completion interrupts it may raise. -/
def Device.raise (d : Device) : Device := { d with pending := d.pending - 1 }

/-- Where the linker puts `sound_buffer` and `descriptor_list`. -/
structure Layout where
  soundBuffer : ℕ
  descriptorList : ℕ

/-- The address of `sound_buffer[i].data`: `flag` is at offset 0 of a node, `next`
at 8 and `data` at 16, so a node takes 16 bytes and its data. -/
def Layout.data (L : Layout) (i : NodeId) : ℕ := L.soundBuffer + i * (16 + dataSize) + 16

/-- A store of a write call into `len` bytes of a node's data from `off` on; `queued`
says whether the node was on the queue. -/
structure Store where
  node : NodeId
  off : ℤ
  len : ℤ
  queued : Bool

/-- The static variables of `kernel/pci.c` and `kernel/sound_card.c`. -/
structure Kernel where
  soundBuffer : NodeId → SoundNode
  bufferIndex : NodeId
  usedSize : ℤ
  soundQueueHead : Option NodeId
  descriptorList : Fin dmaBufferNum → Descriptor
  dev : Device
  stores : List Store

namespace Kernel

def flag (k : Kernel) (i : NodeId) : UInt8 := (k.soundBuffer i).flag

def next (k : Kernel) (i : NodeId) : Option NodeId := (k.soundBuffer i).next

def data (k : Kernel) (i : NodeId) : Data := (k.soundBuffer i).data

/-- Replaces node `i`. -/
def setNode (k : Kernel) (i : NodeId) (n : SoundNode) : Kernel :=
  { k with soundBuffer := Function.update k.soundBuffer i n }

def setFlag (k : Kernel) (i : NodeId) (v : UInt8) : Kernel :=
  k.setNode i { k.soundBuffer i with flag := v }

def setNext (k : Kernel) (i : NodeId) (p : Option NodeId) : Kernel :=
  k.setNode i { k.soundBuffer i with next := p }

/-- The nodes met by following `next` from the head, each once. -/
def onQueue (k : Kernel) : List NodeId := visit k.next bufferNodeNum k.soundQueueHead

/-- Records a store of a write call. -/
def store (k : Kernel) (i : NodeId) (off len : ℤ) : Kernel :=
  { k with stores := ⟨i, off, len, decide (i ∈ k.onQueue)⟩ :: k.stores }

/-- `memset(&sound_buffer[i], 0, sizeof(struct sound_node))`. -/
def memset (k : Kernel) (i : NodeId) : Kernel := k.setNode i .zero

/-- `memmove(&sound_buffer[i].data[off], src, n)` with `n` the length of `src`. -/
def memmove (k : Kernel) (i : NodeId) (off : ℤ) (src : List UInt8) : Kernel :=
  k.setNode i { k.soundBuffer i with data := patchVec (k.data i) off.toNat src }

variable (L : Layout)

/-- The loop of `play` and `soundintr` over the descriptor list: descriptor `j`
points to the `j`-th part of the data of node `i` and asks for an interrupt. -/
def writeBdl (k : Kernel) (i : NodeId) : Kernel :=
  let baseAddr := L.data i % 2 ^ 32
  { k with descriptorList := fun j =>
      ⟨(baseAddr + j * dmaBufferSize) % 2 ^ 32, 0x80000000 ||| dmaSampleNum⟩ }

/-- `play`. It is only called with a node at the head. -/
def play (k : Kernel) : Kernel :=
  match k.soundQueueHead with
  | none => k
  | some i =>
    let k := k.writeBdl L i
    if k.flag i ≠ 0 then
      { k with dev :=
          ({ k.dev with bdbar := some (L.descriptorList % 2 ^ 32), lvi := some 0x1f }).writeCr 5 }
    else k

/-- `*tail = node`, where the walk to the tail met the nodes `q`. -/
def linkTail (k : Kernel) (q : List NodeId) (i : NodeId) : Kernel :=
  match q.getLast? with
  | none => { k with soundQueueHead := some i }
  | some t => k.setNext t (some i)

/-- `add_sound_node`, `none` if its walk to the tail never ends. -/
def addSoundNode (k : Kernel) (i : NodeId) : Option Kernel :=
  let k := k.setNext i none
  (walk k.next bufferNodeNum k.soundQueueHead).map fun q =>
    let k := k.linkTail q i
    -- the queue was empty
    if k.soundQueueHead = some i then k.play L else k

/-- `soundintr`, `none` for its panic on an empty queue. -/
def soundintr (k : Kernel) : Option Kernel :=
  match k.soundQueueHead with
  | none => none
  | some i =>
    -- remove the first node
    let k := { k.setFlag i 0 with soundQueueHead := k.next i }
    match k.soundQueueHead with
    | none => some k
    | some j =>
      let k := k.writeBdl L j
      some { k with dev := k.dev.writeCr 5 }

/-- `clear_sound_queue`. The bounded wait for the reset to finish only reads. -/
def clearSoundQueue (k : Kernel) : Kernel :=
  { k with dev := (k.dev.writeCr 0).writeCr 2, soundQueueHead := none }

/-- `resume`, with its return value. -/
def resume (k : Kernel) : Kernel × ℤ :=
  if k.dev.cr = 0 then ({ k with dev := k.dev.writeCr 5 }, 0) else (k, -1)

/-- `pause`, with its return value. -/
def pause (k : Kernel) : Kernel × ℤ :=
  if k.dev.cr = 5 then ({ k with dev := k.dev.writeCr 0 }, 0) else (k, -1)

/-- The static variables at boot, after `sound_card_init` has programmed the base
address. -/
def boot : Kernel where
  soundBuffer := fun _ => .zero
  bufferIndex := 0
  usedSize := 0
  soundQueueHead := none
  descriptorList := fun _ => ⟨0, 0⟩
  dev := ⟨some (L.descriptorList % 2 ^ 32), none, 0, 0⟩
  stores := []

end Kernel

end AudioPlayer
