import AudioPlayer.Spec.Pci

/-!
# The sound system calls (`kernel/sound_card.c`)

`sys_writeDecodedAudio` runs in two parts, as an interrupt or another process can
come in between: from the `copyin` to the first `add_sound_node`
(`sysWriteDecodedAudio`), and each pass of its loop in search of a free node
(`searchPass`). The calls on volume and sample rate are in `Spec/Codec.lean`.
-/

namespace AudioPlayer

open Links Blocks

/-- `int bufsize = DMA_BUFFER_NUM * DMA_BUFFER_SIZE`. -/
def bufsize : ℤ := dmaBufferNum * dmaBufferSize

/-- A call of `sys_writeDecodedAudio` inside its search loop: the bytes `copyin`
read (`size` of them) and how many of them have been stored. -/
structure Search where
  buf : List UInt8
  readAlready : ℤ

namespace Kernel

/-- The `memset` of a node in a write call. -/
def writeZero (k : Kernel) (i : NodeId) : Kernel := (k.store i 0 dataSize).memset i

/-- The `memmove` into a node in a write call. -/
def writeCopy (k : Kernel) (i : NodeId) (off : ℤ) (src : List UInt8) : Kernel :=
  (k.store i off src.length).memmove i off src

variable (L : Layout)

/-- The node being filled is cleared before the first byte goes into it. -/
def clearNew (k : Kernel) : Kernel := if k.usedSize = 0 then k.writeZero k.bufferIndex else k

/-- `sys_writeDecodedAudio` up to its search loop, for a call whose `size` passed
the test and whose `copyin` read `buf`. The call returns, or goes on to search. -/
def sysWriteDecodedAudio (k : Kernel) (buf : List UInt8) : Option (Kernel × Option Search) :=
  let size : ℤ := buf.length
  let k := k.clearNew
  if bufsize - k.usedSize > size then
    -- data can all fit in the current buffer
    let k := (k.writeCopy k.bufferIndex k.usedSize buf).setFlag k.bufferIndex 1
    some ({ k with usedSize := k.usedSize + size }, none)
  else
    -- fill the current buffer
    let readAlready := bufsize - k.usedSize
    let k := (k.writeCopy k.bufferIndex k.usedSize (buf.take readAlready.toNat)).setFlag
      k.bufferIndex 3
    (k.addSoundNode L k.bufferIndex).map fun k => (k, some ⟨buf, readAlready⟩)

/-- The search loop takes node `i` for all that is left of the data. -/
def claim (k : Kernel) (buf : List UInt8) (readAlready : ℤ) (i : NodeId) : Kernel :=
  { ((k.writeZero i).writeCopy i 0 (buf.drop readAlready.toNat)).setFlag i 1 with
    usedSize := buf.length - readAlready, bufferIndex := i }

/-- The `for` loop over the nodes in the search loop. It ends with a node claimed,
or with what has been stored so far. -/
def searchFrom (buf : List UInt8) : List NodeId → Kernel → ℤ → Option (Kernel × Option ℤ)
  | [], k, readAlready => some (k, some readAlready)
  | i :: is, k, readAlready =>
    if k.flag i = 0 then
      if bufsize > buf.length - readAlready then some (k.claim buf readAlready i, none)
      else
        -- fill this new buffer and send it
        let src := (buf.drop readAlready.toNat).take bufsize.toNat
        let k := ((k.writeZero i).writeCopy i 0 src).setFlag i 3
        (k.addSoundNode L i).bind fun k => searchFrom buf is k (readAlready + bufsize)
    else searchFrom buf is k readAlready

/-- One pass of the search loop. -/
def searchPass (k : Kernel) (w : Search) : Option (Kernel × Option Search) :=
  (k.searchFrom L w.buf (List.finRange bufferNodeNum) w.readAlready).map fun r =>
    (r.1, r.2.map fun readAlready => ⟨w.buf, readAlready⟩)

/-- `sys_finishWriteAudio`. -/
def sysFinishWriteAudio (k : Kernel) : Option Kernel :=
  -- send the last buffer
  if k.usedSize > 0 then (k.setFlag k.bufferIndex 3).addSoundNode L k.bufferIndex else some k

/-- `sys_clearSoundCardBuffer`. -/
def sysClearSoundCardBuffer (k : Kernel) : Kernel :=
  let k := { k with bufferIndex := 0, usedSize := 0 }
  let k := (List.finRange bufferNodeNum).foldl (fun k i => (k.memset i).setFlag i 0) k
  k.clearSoundQueue

/-- `sys_setPlay`, with its return value. -/
def sysSetPlay (k : Kernel) (play : ℤ) : Kernel × ℤ := if play ≠ 0 then k.resume else k.pause

end Kernel

end AudioPlayer
