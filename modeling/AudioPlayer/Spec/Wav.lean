import AudioPlayer.Spec.Codec

/-!
# Files and WAV headers (`kernel/fs.c`, `user/wav.c`)

`readWavHead` reads the first 44 bytes of a file into a buffer on the stack and
searches it for three tags. The buffer is `Buf`, the memory from its first byte on: a
file shorter than the header leaves what was on the stack, and the searches look up to
three bytes behind the buffer.
-/

namespace AudioPlayer

/-- What `bmap` can map: 12 direct blocks and one indirect block of 16384, 65536 bytes
each. -/
def maxFileBytes : ℕ := (12 + 16384) * 65536

/-- The contents of a file the kernel can read. -/
structure File where
  bytes : List UInt8
  size_le : bytes.length ≤ maxFileBytes

/-- `readi`, with offsets modulo `2 ^ 32`. -/
def File.readi (f : File) (off n : ℕ) : List UInt8 :=
  let size := f.bytes.length
  if off > size ∨ (off + n) % 2 ^ 32 < off then []
  else
    let n := if (off + n) % 2 ^ 32 > size then size - off else n
    (f.bytes.drop off).take n

/-- An open file. -/
structure OpenFile where
  file : File
  off : ℕ

/-- `fileread` on an inode: the bytes read, and the file with its new offset. -/
def OpenFile.read (o : OpenFile) (n : ℕ) : List UInt8 × OpenFile :=
  let data := o.file.readi o.off n
  (data, { o with off := (o.off + data.length) % 2 ^ 32 })

/-- `HEAD_LENGTH`. -/
def headLength : ℕ := 44

/-- The memory from the first byte of the header buffer on. -/
abbrev Buf := ℕ → UInt8

/-- The buffer after a read of `data`. -/
def Buf.fill (buf : Buf) (data : List UInt8) : Buf := fun i => (data[i]?).getD (buf i)

/-- `*(short *)&buf[pos]`, stored in a `ushort`. -/
def Buf.load16 (buf : Buf) (pos : ℕ) : ℕ := (buf pos).toNat + 2 ^ 8 * (buf (pos + 1)).toNat

/-- `*(int *)&buf[pos]`, stored in a `uint`. -/
def Buf.load32 (buf : Buf) (pos : ℕ) : ℕ := buf.load16 pos + 2 ^ 16 * buf.load16 (pos + 2)

/-- `struct AudioInfo`. -/
structure AudioInfo where
  numChannels : ℕ
  sampleRate : ℕ
  byteRate : ℕ
  bitsPerSample : ℕ
  numFrame : ℤ

/-- `struct WavInfo`. -/
structure WavInfo where
  chunkId : List UInt8
  chunkSize : ℕ
  format : List UInt8
  fmtChunkId : List UInt8
  fmtChunkSize : ℕ
  audioFomat : ℕ
  blockAlign : ℕ
  dataChunkId : List UInt8
  dataChunkSize : ℕ
  startPos : ℕ

/-- The bytes of a tag. -/
def tag (s : String) : List UInt8 := s.toList.map fun c => UInt8.ofNat c.toNat

/-- The test of a search loop at position `pos`. -/
def Buf.hasTag (buf : Buf) : List UInt8 → ℕ → Bool
  | [], _ => true
  | b :: bs, pos => buf pos == b && buf.hasTag bs (pos + 1)

/-- A search loop with `n` positions left before the end of the header: whether it
found the tag, and the position it ends at. -/
def Buf.seekFrom (buf : Buf) (bs : List UInt8) : ℕ → ℕ → Bool × ℕ
  | 0, pos => (false, pos)
  | n + 1, pos => if buf.hasTag bs pos then (true, pos + 4) else buf.seekFrom bs n (pos + 1)

/-- `while (pos < HEAD_LENGTH) { if (...) { ... pos += 4; break; } ++pos; }`. -/
def Buf.seek (buf : Buf) (bs : List UInt8) (pos : ℕ) : Bool × ℕ :=
  buf.seekFrom bs (headLength - pos) pos

/-- `data_chunk_size / (num_channels * (bits_per_sample / 8))`, unsigned, stored in an
`int`: RISC-V gives the largest number for a division by zero. -/
def numFrames (dataChunkSize numChannels bitsPerSample : ℕ) : ℤ :=
  let d := numChannels * (bitsPerSample / 8)
  int32 (if d = 0 then 2 ^ 32 - 1 else dataChunkSize / d : ℕ)

/-- The part of `readWavHead` behind the read. -/
def parseHead (buf : Buf) (info : WavInfo) : AudioInfo × WavInfo :=
  -- the RIFF chunk
  let riff := buf.seek (tag "RIFF") 0
  let pos := riff.2
  let chunkSize := buf.load32 pos
  let pos := pos + 4
  let format := [buf pos, buf (pos + 1), buf (pos + 2), buf (pos + 3)]
  let pos := pos + 4
  -- the format chunk
  let fmt := buf.seek (tag "fmt") pos
  let pos := fmt.2
  let fmtChunkSize := buf.load32 pos
  let pos := pos + 4
  let audioFomat := buf.load16 pos
  let pos := pos + 2
  let numChannels := buf.load16 pos
  let pos := pos + 2
  let sampleRate := buf.load32 pos
  let pos := pos + 4
  let byteRate := buf.load32 pos
  let pos := pos + 4
  let blockAlign := buf.load16 pos
  let pos := pos + 2
  let bitsPerSample := buf.load16 pos
  let pos := pos + 2
  -- the data chunk
  let data := buf.seek (tag "data") pos
  let pos := data.2
  let dataChunkSize := buf.load32 pos
  let pos := pos + 4
  (⟨numChannels, sampleRate, byteRate, bitsPerSample,
      numFrames dataChunkSize numChannels bitsPerSample⟩,
    { chunkId := if riff.1 then tag "RIFF" else info.chunkId
      chunkSize := chunkSize
      format := format
      fmtChunkId := if fmt.1 then tag "fmt" ++ info.fmtChunkId.drop 3 else info.fmtChunkId
      fmtChunkSize := fmtChunkSize
      audioFomat := audioFomat
      blockAlign := blockAlign
      dataChunkId := if data.1 then tag "data" else info.dataChunkId
      dataChunkSize := dataChunkSize
      startPos := pos })

/-- What `readWavHead` returns and leaves behind. -/
structure HeadResult where
  ret : ℤ
  file : OpenFile
  ainfo : AudioInfo
  info : WavInfo

/-- `readWavHead` on an open file, where `buf` is what the stack holds. -/
def readWavHead (o : OpenFile) (buf : Buf) (ainfo : AudioInfo) (info : WavInfo) : HeadResult :=
  let (data, o) := o.read headLength
  if data.length > 0 then
    let (ainfo, info) := parseHead (buf.fill data) info
    if info.startPos ≠ headLength then ⟨-1, o, ainfo, info⟩ else ⟨0, o, ainfo, info⟩
  else ⟨-1, o, ainfo, info⟩

/-! ## What `readWavHead` reads -/

/-- The bytes that the test of a search loop reads: it stops at the first one that differs. -/
def Buf.tagReads (buf : Buf) : List UInt8 → ℕ → List ℕ
  | [], _ => []
  | b :: bs, pos => pos :: if buf pos == b then buf.tagReads bs (pos + 1) else []

/-- The bytes that a search loop reads, with `n` positions left before the end of the header. -/
def Buf.seekReads (buf : Buf) (bs : List UInt8) : ℕ → ℕ → List ℕ
  | 0, _ => []
  | n + 1, pos =>
    buf.tagReads bs pos ++ if buf.hasTag bs pos then [] else buf.seekReads bs n (pos + 1)

/-- The bytes of the buffer that `readWavHead` reads, in its order: the three searches, and
behind each the fields up to the next one. -/
def Buf.headReads (buf : Buf) : List ℕ :=
  let riff := (buf.seek (tag "RIFF") 0).2
  let fmt := (buf.seek (tag "fmt") (riff + 8)).2
  let data := (buf.seek (tag "data") (fmt + 20)).2
  buf.seekReads (tag "RIFF") headLength 0 ++ (List.range 8).map (riff + ·) ++
    buf.seekReads (tag "fmt") (headLength - (riff + 8)) (riff + 8) ++ (List.range 20).map (fmt + ·) ++
    buf.seekReads (tag "data") (headLength - (fmt + 20)) (fmt + 20) ++ (List.range 4).map (data + ·)

/-- `num_channels * (bits_per_sample / 8)`, what the number of frames is divided by. -/
def AudioInfo.divisor (a : AudioInfo) : ℕ := a.numChannels * (a.bitsPerSample / 8)

/-! ## Canonical files, for runs on fixed inputs -/

/-- The two bytes of a `ushort`. -/
def bytes16 (n : ℕ) : List UInt8 := [UInt8.ofNat n, UInt8.ofNat (n / 2 ^ 8)]

/-- The four bytes of a `uint`. -/
def bytes32 (n : ℕ) : List UInt8 := bytes16 n ++ bytes16 (n / 2 ^ 16)

/-- The header of a PCM file with `dataSize` bytes of data. -/
def canonicalHead (numChannels sampleRate bitsPerSample dataSize : ℕ) : List UInt8 :=
  tag "RIFF" ++ bytes32 (36 + dataSize) ++ tag "WAVE" ++
  tag "fmt " ++ bytes32 16 ++ bytes16 1 ++ bytes16 numChannels ++ bytes32 sampleRate ++
    bytes32 (sampleRate * numChannels * bitsPerSample / 8) ++
    bytes16 (numChannels * bitsPerSample / 8) ++ bytes16 bitsPerSample ++
  tag "data" ++ bytes32 dataSize

end AudioPlayer
