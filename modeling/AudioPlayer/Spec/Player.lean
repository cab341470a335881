import AudioPlayer.Spec.File
import AudioPlayer.Spec.Ulib
import AudioPlayer.Spec.Wav
import AudioPlayer.Spec.System

/-!
# The player (`user/aplaycore.c`, `user/aplay.c`)

The state of the player process, with what it sees of the kernel: its file descriptors,
the readers it has forked and not killed, the sound card and the codec. `out` is what
it printed, and `entries` is a ghost that records each entry of `apOpenAudio` and
`apCloseAudio` with the value of `hasOpened`.

What the system calls of one command find is its `Outcome`. Between the commands the
readers and the sound card make steps of their own.
-/

namespace AudioPlayer

open Runs

/-- `enum ApFileType`. -/
inductive ApFileType
  | wav
  | mp3

/-- `struct ApAudioPlayInfo`. A `double` is the rational it stands for. -/
structure ApAudioPlayInfo where
  hasOpened : Bool
  maxVolume : ℤ
  volume : ℤ
  fname : List Char
  ftype : ApFileType
  ainfo : AudioInfo
  wavInfo : WavInfo
  isPlaying : ℤ
  speed : ℚ
  fd : ℤ
  readDecPid : ℤ

/-- A reader process: its pid and the file it inherits behind `apinfo->fd`, with the
offset it shares. -/
structure Reader where
  pid : ℤ
  file : Option OpenFile

inductive Entry
  | openAudio (hasOpened : Bool)
  | closeAudio (hasOpened : Bool)

structure Player where
  apinfo : ApAudioPlayInfo
  ofile : ℕ → Option OpenFile
  readers : List Reader
  sys : Sys
  codec : Codec
  out : List (ℕ × String)
  entries : List Entry
  exited : Bool

/-- What the system calls of one command find: the file behind the path, what the stack
holds below `readWavHead`, the string at address 0, and the pid `fork` gives. -/
structure Outcome where
  found : Option File
  stack : Buf
  atZero : List Char
  fork : Option ℕ

/-- `READ_BUFFER_SIZE`. -/
def readBufferSize : ℕ := 2048

namespace Player

/-! ## System calls -/

/-- `open`, with the descriptor and the open file. `fdalloc` takes the lowest free
descriptor. -/
def openFile (p : Player) (found : Option File) : Option (Player × ℕ × OpenFile) :=
  found.bind fun f =>
    ((List.range nofile).find? fun fd => (p.ofile fd).isNone).map fun fd =>
      ({ p with ofile := Function.update p.ofile fd (some ⟨f, 0⟩) }, fd, ⟨f, 0⟩)

/-- `close`. -/
def close (p : Player) (fd : ℤ) : Player × ℤ :=
  if 0 ≤ fd ∧ fd < nofile ∧ (p.ofile fd.toNat).isSome then
    ({ p with ofile := Function.update p.ofile fd.toNat none }, 0)
  else (p, -1)

/-- `kill`. -/
def kill (p : Player) (pid : ℤ) : Player :=
  { p with readers := p.readers.filter (·.pid ≠ pid) }

/-- `clearSoundCardBuffer`. -/
def clearSoundCardBuffer (p : Player) : Player :=
  { p with sys := { p.sys with kernel := p.sys.kernel.sysClearSoundCardBuffer } }

/-- `setPlay`. -/
def setPlay (p : Player) (play : ℤ) : Player :=
  { p with sys := { p.sys with kernel := (p.sys.kernel.sysSetPlay play).1 } }

/-- `setSampleRate`: the kernel reads the argument as an `int`. -/
def setSampleRate (p : Player) (rate : ℕ) : Player :=
  { p with codec := (p.codec.sysSetSampleRate (int32 rate)).1 }

/-- `printf` and `fprintf`. -/
def print (p : Player) (fd : ℕ) (text : String) : Player := { p with out := p.out ++ [(fd, text)] }

/-! ## `user/aplaycore.c` -/

/-- `(double)sample_rate * speed * (double)num_channels / 2.0`. -/
def rateOf (ainfo : AudioInfo) (speed : ℚ) : ℚ :=
  Double.div (Double.mul (Double.mul ainfo.sampleRate speed) ainfo.numChannels) 2

/-- `updateSampleRate`. -/
def updateSampleRate (p : Player) : Player :=
  let p := p.setSampleRate (Double.toUInt32 (rateOf p.apinfo.ainfo p.apinfo.speed))
  if p.apinfo.isPlaying ≠ 0 then (p.setPlay 0).setPlay 1 else p

/-- `apSetPlay`. -/
def apSetPlay (p : Player) (play : ℤ) : Player × ℤ :=
  if play = p.apinfo.isPlaying then (p, 0)
  else
    let p := p.setPlay play
    ({ p with apinfo := { p.apinfo with isPlaying := play } }, 0)

/-- `apSetVolume`. -/
def apSetVolume (p : Player) (volume : ℤ) : Player × ℤ :=
  if ¬(volume ≥ 0 ∧ volume ≤ p.apinfo.maxVolume) then (p.print 2 "invalid volume value\n", -1)
  else
    let p := { p with codec := p.codec.sysSetVolume volume p.apinfo.maxVolume }
    let actualVolume := p.codec.sysGetVolume p.apinfo.maxVolume
    ({ p with apinfo := { p.apinfo with volume := actualVolume } }, 0)

/-- `apSetSpeed`. -/
def apSetSpeed (p : Player) (speed : ℚ) : Player × ℤ :=
  if speed ≤ 0 then (p.print 2 "invalid speed value\n", -1)
  else
    let actualSampleRate := Double.toInt32 (rateOf p.apinfo.ainfo speed)
    if actualSampleRate > 65535 then (p.print 2 "too high speed value for this audio\n", -1)
    else
      let p := { p with apinfo := { p.apinfo with speed := speed } }
      (p.updateSampleRate, 0)

/-- The end of `apOpenAudio`, for a file whose header was read. -/
def setOpened (p : Player) (file : List Char) (fd : ℕ) : Player :=
  let p := p.clearSoundCardBuffer
  let apinfo := { p.apinfo with
    hasOpened := true
    fname := file
    isPlaying := 0
    speed := 1
    volume := p.codec.sysGetVolume p.apinfo.maxVolume
    fd := fd
    readDecPid := -1 }
  { p with apinfo := apinfo }.updateSampleRate

/-- `apOpenAudio`. Where the path has no point, `strcmp` reads the string at
address 0. -/
def apOpenAudio (p : Player) (file : List Char) (e : Outcome) : Player × ℤ :=
  let p := { p with entries := .openAudio p.apinfo.hasOpened :: p.entries }
  let filext := (strrchr file '.').getD e.atZero
  if filext = ".wav".toList then
    let p := { p with apinfo := { p.apinfo with ftype := .wav } }
    match p.openFile e.found with
    | none => (p.print 2 ("fail to open " ++ String.ofList file ++ "\n"), -1)
    | some (p, fd, o) =>
      let h := readWavHead o e.stack p.apinfo.ainfo p.apinfo.wavInfo
      let p := { p with
        ofile := Function.update p.ofile fd (some h.file)
        apinfo := { p.apinfo with ainfo := h.ainfo, wavInfo := h.info } }
      if h.ret < 0 then (((p.print 2 "invalid file format\n").close fd).1, -1)
      else (p.setOpened file fd, fd)
  else if filext = ".mp3".toList then
    (p.print 2 ("将来也许会支持" ++ String.ofList filext ++ "文件，但至少现在不支持……\n"), -1)
  else (p.print 2 "invalid file extension\n", -1)

/-- `apShowAudioInfo`. -/
def apShowAudioInfo (p : Player) : Player :=
  ((p.print 1 ("file name: " ++ String.ofList p.apinfo.fname ++ "\n")).print 1
    ("sample rate: " ++ toString (int32 p.apinfo.ainfo.sampleRate) ++ "\n")).print 1
    ("volume: " ++ toString p.apinfo.volume ++ "\n")

/-- `apReadDecode` in the player: the child goes on as a `Reader`. -/
def apReadDecode (p : Player) (e : Outcome) : Player × ℤ :=
  match e.fork with
  | none => (p.print 2 "fail to fork", -1)
  | some pid =>
    ({ p with
        apinfo := { p.apinfo with readDecPid := pid }
        readers := ⟨pid, p.ofile p.apinfo.fd.toNat⟩ :: p.readers }, pid)

/-- `apCloseAudio`. -/
def apCloseAudio (p : Player) : Player × ℤ :=
  let p := { p with entries := .closeAudio p.apinfo.hasOpened :: p.entries }
  let p := p.kill p.apinfo.readDecPid
  let p := p.clearSoundCardBuffer
  let p := (p.close p.apinfo.fd).1
  ({ p with apinfo := { p.apinfo with hasOpened := false } }, 0)

end Player

/-- The loop of a reader, which ends with `finishwriteaudio`: the buffers it passes to
`writeDecodedAudio`, `none` if it makes more than `fuel` passes. -/
def OpenFile.readLoop : ℕ → OpenFile → Option (List (List UInt8))
  | 0, _ => none
  | fuel + 1, o =>
    let (data, o) := o.read readBufferSize
    if data = [] then some [] else (o.readLoop fuel).map (data :: ·)

/-- What a reader passes to `writeDecodedAudio` before `finishwriteaudio`. -/
def Reader.writes (r : Reader) : Option (List (List UInt8)) :=
  r.file.bind fun o => o.readLoop (o.file.bytes.length + 1)

/-! ## `user/aplay.c` -/

/-- `enum Command`. -/
inductive Command
  | error
  | help
  | open
  | volume
  | speed
  | pause
  | resume
  | stop
  | quit

/-- `struct cmd`. The number of arguments is the length of `argv`. -/
structure Cmd where
  type : Command
  argv : List (List Char)

/-- The lines of `showHelp`. -/
def helpLines : List String :=
  ["open:\n",
   "    open <file path>       open the file and play.\n",
   "                           File already open will be closed first.\n",
   "volume: default max volume is 100.\n",
   "    volume                 print current volume\n",
   "    volume <target volume> set volume\n",
   "speed: default speed is 1.0\n",
   "    speed <target speed>   set play speed\n",
   "pause:\n",
   "    pause                  pause playing\n",
   "resume:\n",
   "    resume                 resume playing\n",
   "stop:\n",
   "    stop                   stop playing\n",
   "quit:\n",
   "    quit                   quit the Audio Player\n"]

namespace Player

/-- `showHelp`. -/
def showHelp (p : Player) : Player := helpLines.foldl (·.print 1 ·) p

/-- An argument of a command, as a C string. -/
def arg (c : Cmd) (i : ℕ) : List Char := c.argv.getD i []

/-- `runcmd`, case `OPEN`. -/
def runOpen (p : Player) (c : Cmd) (e : Outcome) : Player :=
  if c.argv.length ≠ 2 then p.print 2 (String.ofList (arg c 0) ++ " <file path>\n")
  else
    let p := if p.apinfo.hasOpened then p.apCloseAudio.1 else p
    let r := p.apOpenAudio (arg c 1) e
    if r.2 ≥ 0 then ((r.1.apShowAudioInfo.apReadDecode e).1.apSetPlay 1).1 else r.1

/-- `runcmd`, case `VOLUME`. -/
def runVolume (p : Player) (c : Cmd) : Player :=
  if c.argv.length > 2 then p.print 2 (String.ofList (arg c 0) ++ " <target volume>\n")
  else if c.argv.length = 1 then
    p.print 1 ("current volume: " ++ toString p.apinfo.volume ++ "\n")
  else
    let r := p.apSetVolume (atoi (arg c 1))
    if r.2 ≥ 0 then r.1.print 1 ("current volume: " ++ toString r.1.apinfo.volume ++ "\n") else r.1

/-- `runcmd`, case `SPEED`. -/
def runSpeed (p : Player) (c : Cmd) : Player :=
  if c.argv.length ≠ 2 then p.print 2 (String.ofList (arg c 0) ++ " <target speed>\n")
  else if !p.apinfo.hasOpened then p.print 2 "no file open\n"
  else
    let r := p.apSetSpeed (atof (arg c 1))
    if r.2 ≥ 0 then r.1.print 1 ("current speed: " ++ String.ofList (arg c 1) ++ "\n") else r.1

/-- `runcmd`. -/
def runcmd (p : Player) (c : Cmd) (e : Outcome) : Player :=
  match c.type with
  | .error => p.print 2 "invalid command\n"
  | .help => p.showHelp
  | .open => p.runOpen c e
  | .volume => p.runVolume c
  | .speed => p.runSpeed c
  | .pause => if p.apinfo.hasOpened then (p.apSetPlay 0).1 else p.print 2 "no file open\n"
  | .resume => if p.apinfo.hasOpened then (p.apSetPlay 1).1 else p.print 2 "no file open\n"
  | .stop => if p.apinfo.hasOpened then p.apCloseAudio.1 else p.print 2 "no file open\n"
  | .quit =>
    let p := if p.apinfo.hasOpened then p.apCloseAudio.1 else p
    { p with exited := true }

/-- The player at its first prompt, with the descriptors it inherits. `malloc` leaves
`junk` in what `ApAudioPlayInfo` does not set. -/
def start (ofile : ℕ → Option OpenFile) (sys : Sys) (codec : Codec) (junk : ApAudioPlayInfo) :
    Player where
  apinfo := { junk with hasOpened := false, maxVolume := 100, volume := codec.sysGetVolume 100, speed := 1 }
  ofile := ofile
  readers := []
  sys := sys
  codec := codec
  out := [(1, "Audio Player 1.0\n"), (1, "Type \"help\" for more information.\n")]
  entries := []
  exited := false

end Player

/-- A command of the user, or a step of the sound card or of a reader. -/
inductive Event
  | cmd (c : Cmd) (e : Outcome)
  | sound (a : Step)

/-- One event, `none` where it cannot take place. -/
def Player.step (L : Layout) (p : Player) : Event → Option Player
  | .cmd c e => if p.exited then none else some (p.runcmd c e)
  | .sound a => (p.sys.step L a).map fun s => { p with sys := s }

end AudioPlayer
