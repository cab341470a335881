import AudioPlayer.Spec.Player

/-!
# The player's session

Of the player's state only a few fields decide which files and readers it holds.
`Handles` is that part; opening, forking and closing are its only changes, and every
other function of the player leaves it alone.

* `Player.apOpenAudio_cases`: a failed `apOpenAudio` holds nothing new;
* `Player.runcmd_ok`: every command keeps the invariant `HandlesOK`;
* `session_invariant`: at every prompt the player holds exactly the descriptor of the
  open file, and at most one reader.
-/

namespace AudioPlayer

open Function Runs List Option

/-- The part of the player's state that says what it holds. -/
structure Handles where
  hasOpened : Bool
  fd : ℤ
  readDecPid : ℤ
  ofile : ℕ → Option OpenFile
  readers : List Reader
  entries : List Entry

namespace Handles

/-- A file is opened as descriptor `fd`. -/
def opened (h : Handles) (fd : ℕ) (o : OpenFile) : Handles :=
  ⟨true, fd, -1, update h.ofile fd (some o), h.readers, .openAudio h.hasOpened :: h.entries⟩

/-- An `apOpenAudio` that fails. -/
def refused (h : Handles) : Handles := { h with entries := .openAudio h.hasOpened :: h.entries }

/-- A reader is forked. -/
def forked (h : Handles) (pid : ℕ) : Handles :=
  { h with readDecPid := pid, readers := ⟨pid, h.ofile h.fd.toNat⟩ :: h.readers }

/-- The file is closed and its reader killed. -/
def closed (h : Handles) : Handles where
  hasOpened := false
  fd := h.fd
  readDecPid := h.readDecPid
  ofile :=
    if 0 ≤ h.fd ∧ h.fd < nofile ∧ (h.ofile h.fd.toNat).isSome then
      update h.ofile h.fd.toNat none
    else h.ofile
  readers := h.readers.filter (·.pid ≠ h.readDecPid)
  entries := .closeAudio h.hasOpened :: h.entries

end Handles

namespace Player

def handles (p : Player) : Handles :=
  ⟨p.apinfo.hasOpened, p.apinfo.fd, p.apinfo.readDecPid, p.ofile, p.readers, p.entries⟩

variable (p : Player)

/-- What is printed does not matter to the handles. -/
@[simp] theorem print_handles (fd : ℕ) (text : String) : (p.print fd text).handles = p.handles := rfl

@[simp] theorem setPlay_handles (play : ℤ) : (p.setPlay play).handles = p.handles := rfl

@[simp] theorem setSampleRate_handles (rate : ℕ) : (p.setSampleRate rate).handles = p.handles := rfl

/-- The sample rate does not either. -/
@[simp] theorem updateSampleRate_handles : p.updateSampleRate.handles = p.handles := by
  unfold updateSampleRate
  simp only
  split <;> simp

@[simp] theorem apSetPlay_handles (play : ℤ) : (p.apSetPlay play).1.handles = p.handles := by
  unfold apSetPlay
  split <;> rfl

@[simp] theorem apSetVolume_handles (volume : ℤ) : (p.apSetVolume volume).1.handles = p.handles := by
  unfold apSetVolume
  split <;> rfl

/-- The commands on a file that is open hold on to what they have. -/
@[simp] theorem apSetSpeed_handles (speed : ℚ) : (p.apSetSpeed speed).1.handles = p.handles := by
  unfold apSetSpeed
  simp only
  split
  · rfl
  · split
    · rfl
    · exact updateSampleRate_handles _

/-- The help is printed line by line. -/
@[simp] theorem showHelp_handles : p.showHelp.handles = p.handles := by
  have hfold : ∀ (lines : List String) (p : Player),
      (lines.foldl (·.print 1 ·) p).handles = p.handles := by
    intro lines
    induction lines with
    | nil => intro p; rfl
    | cons line lines ih => intro p; exact (ih _).trans (print_handles p 1 line)
  exact hfold helpLines p

/-- `close` frees a descriptor that is in use. -/
theorem close_ofile (fd : ℤ) : (p.close fd).1.ofile =
    if 0 ≤ fd ∧ fd < nofile ∧ (p.ofile fd.toNat).isSome then update p.ofile fd.toNat none
    else p.ofile := by
  unfold close
  split <;> rfl

/-- Nothing else is touched. -/
theorem close_handles (fd : ℤ) :
    (p.close fd).1.handles = { p.handles with ofile := (p.close fd).1.ofile } := by
  unfold close
  split <;> rfl

/-- Closing the descriptor that was opened last gives the old table back. -/
theorem close_update {q : ℕ → Option OpenFile} {fd : ℕ} {o : OpenFile} (hfree : q fd = none)
    (hlt : fd < nofile) :
    (if 0 ≤ (fd : ℤ) ∧ (fd : ℤ) < nofile ∧
        (update q fd (some o) (fd : ℤ).toNat).isSome then
      update (update q fd (some o)) (fd : ℤ).toNat none
    else update q fd (some o)) = q := by
  rw [Int.toNat_natCast, if_pos ⟨by omega, by omega, by simp⟩, update_idem, ← hfree,
    update_eq_self]

/-- **`apCloseAudio`** gives back the descriptor and kills the reader. -/
theorem apCloseAudio_handles : p.apCloseAudio.1.handles = p.handles.closed := by
  unfold apCloseAudio
  simp only
  set p1 := ({ p with entries := Entry.closeAudio p.apinfo.hasOpened :: p.entries }.kill
    p.apinfo.readDecPid).clearSoundCardBuffer with hp1
  have h : (p1.close p1.apinfo.fd).1.handles = _ := close_handles p1 p1.apinfo.fd
  rw [close_ofile] at h
  exact congrArg (fun x : Handles => { x with hasOpened := false }) h

@[simp] theorem apShowAudioInfo_handles : p.apShowAudioInfo.handles = p.handles := by
  unfold apShowAudioInfo
  simp only [print_handles]

/-- A reader is one more process, if there is room for it. -/
theorem apReadDecode_handles (e : Outcome) :
    (p.apReadDecode e).1.handles = e.fork.elim p.handles p.handles.forked := by
  unfold apReadDecode
  cases e.fork <;> rfl

/-- With playing stopped, `updateSampleRate` only sets the rate. -/
theorem updateSampleRate_stopped (h : p.apinfo.isPlaying = 0) :
    p.updateSampleRate =
      p.setSampleRate (Double.toUInt32 (rateOf p.apinfo.ainfo p.apinfo.speed)) := by
  unfold updateSampleRate
  exact if_neg (not_not.2 h)

variable {p}

/-- `open` takes a descriptor that is free. -/
theorem openFile_spec {p' : Player} {found : Option File} {fd : ℕ} {o : OpenFile}
    (h : p.openFile found = some (p', fd, o)) :
    ∃ f, found = some f ∧ p.ofile fd = none ∧ fd < nofile ∧ o = ⟨f, 0⟩ ∧
      p' = { p with ofile := update p.ofile fd (some ⟨f, 0⟩) } := by
  obtain ⟨f, hf, h⟩ := bind_eq_some_iff.1 h
  obtain ⟨n, hn, h⟩ := map_eq_some_iff.1 h
  simp only [Prod.mk.injEq] at h
  obtain ⟨hp', rfl, ho⟩ := h
  have hfree : p.ofile n = none := by simpa using List.find?_some hn
  have hlt : n < nofile := mem_range.1 (mem_of_find?_eq_some hn)
  exact ⟨f, hf, hfree, hlt, ho.symm, hp'.symm⟩

/-- What a successful `apOpenAudio` did: it opened a file as `fd`, read its header as `h`
and left `p1`, where the rest of the player's state is filled in. -/
structure Opened (p : Player) (file : List Char) (e : Outcome) (f : File) (fd : ℕ) (h : HeadResult)
    (p1 : Player) : Prop where
  found : e.found = some f
  free : p.ofile fd = none
  fd_lt : fd < nofile
  head : h = readWavHead ⟨f, 0⟩ e.stack p.apinfo.ainfo p.apinfo.wavInfo
  accepted : 0 ≤ h.ret
  result : p.apOpenAudio file e = (p1.setOpened file fd, (fd : ℤ))
  ainfo : p1.apinfo.ainfo = h.ainfo
  wavInfo : p1.apinfo.wavInfo = h.info
  ofile : p1.ofile = update p.ofile fd (some h.file)
  readers : p1.readers = p.readers
  entries : p1.entries = .openAudio p.apinfo.hasOpened :: p.entries
  codec : p1.codec = p.codec

/-- **`apOpenAudio` fails and holds nothing new, or opens a file whose header was
accepted.** -/
theorem apOpenAudio_cases (p : Player) (file : List Char) (e : Outcome) :
    ((p.apOpenAudio file e).2 = -1 ∧ (p.apOpenAudio file e).1.handles = p.handles.refused) ∨
      ∃ f fd h p1, Opened p file e f fd h p1 := by
  by_cases hext : (strrchr file '.').getD e.atZero = ".wav".toList
  · cases ho : { p with
        entries := .openAudio p.apinfo.hasOpened :: p.entries
        apinfo := { p.apinfo with ftype := .wav } }.openFile e.found with
    | none =>
      unfold apOpenAudio
      simp only [if_pos hext, ho]
      exact Or.inl ⟨trivial, print_handles _ _ _⟩
    | some r =>
      obtain ⟨p', fd, o⟩ := r
      obtain ⟨f, hf, hfree, hlt, rfl, rfl⟩ := openFile_spec ho
      set h := readWavHead ⟨f, 0⟩ e.stack p.apinfo.ainfo p.apinfo.wavInfo with hh
      by_cases hret : h.ret < 0
      · -- the header is refused: the descriptor is closed again
        left
        unfold apOpenAudio
        simp only [if_pos hext, ho, ← hh, if_pos hret, true_and]
        rw [close_handles, close_ofile]
        simp only [print, update_idem]
        rw [close_update hfree hlt]
        rfl
      · right
        refine ⟨f, fd, h, { p with
          entries := .openAudio p.apinfo.hasOpened :: p.entries
          apinfo := { p.apinfo with ftype := .wav, ainfo := h.ainfo, wavInfo := h.info }
          ofile := update (update p.ofile fd (some ⟨f, 0⟩)) fd (some h.file) },
          hf, hfree, hlt, hh, not_lt.1 hret, ?_, rfl, rfl, update_idem .., rfl, rfl, rfl⟩
        unfold apOpenAudio
        simp only [if_pos hext, ho, ← hh, if_neg hret]
  · -- another extension: nothing is opened
    unfold apOpenAudio
    simp only [if_neg hext]
    split <;> exact Or.inl ⟨rfl, print_handles _ _ _⟩

/-- What the end of `apOpenAudio` leaves of the header, and what it does to the codec. -/
theorem setOpened_info (p : Player) (file : List Char) (fd : ℕ) :
    (p.setOpened file fd).apinfo.ainfo = p.apinfo.ainfo ∧
      (p.setOpened file fd).apinfo.wavInfo = p.apinfo.wavInfo ∧
      (p.setOpened file fd).codec =
        (p.codec.sysSetSampleRate (int32 (Double.toUInt32 (rateOf p.apinfo.ainfo 1)))).1 := by
  unfold setOpened
  simp only
  rw [updateSampleRate_stopped _ rfl]
  exact ⟨rfl, rfl, rfl⟩

/-- The handles at the end of `apOpenAudio`. -/
theorem setOpened_handles (p : Player) (file : List Char) (fd : ℕ) :
    (p.setOpened file fd).handles = ⟨true, fd, -1, p.ofile, p.readers, p.entries⟩ :=
  updateSampleRate_handles _

theorem Opened.handles {file : List Char} {e : Outcome} {f : File} {fd : ℕ} {h : HeadResult}
    {p1 : Player} (ho : Opened p file e f fd h p1) :
    (p.apOpenAudio file e).1.handles = p.handles.opened fd h.file := by
  rw [ho.result, setOpened_handles, ho.ofile, ho.readers, ho.entries]
  rfl

end Player

/-! ## The invariant -/

/-- What the player holds, above the descriptors `base` it started with. -/
structure HandlesOK (base : ℕ → Option OpenFile) (h : Handles) : Prop where
  /-- exactly the descriptor of the open file -/
  held : h.hasOpened = true → ∃ fd o, h.fd = (fd : ℕ) ∧ fd < nofile ∧ base fd = none ∧
    h.ofile = update base fd (some o)
  free : h.hasOpened = false → h.ofile = base
  readers : h.readers = [] ∨ h.hasOpened = true ∧ ∃ r, h.readers = [r] ∧ r.pid = h.readDecPid
  entries : ∀ x ∈ h.entries, x = .openAudio false ∨ x = .closeAudio true

namespace HandlesOK

variable {base : ℕ → Option OpenFile} {h : Handles}

/-- Without an open file there is no reader. -/
theorem no_readers (ok : HandlesOK base h) (hf : h.hasOpened = false) : h.readers = [] := by
  rcases ok.readers with hr | ⟨ho, -⟩
  · exact hr
  · rw [hf] at ho
    simp at ho

/-- `apOpenAudio` fails, with no file open. -/
theorem refused (ok : HandlesOK base h) (hf : h.hasOpened = false) : HandlesOK base h.refused := by
  refine ⟨ok.held, ok.free, ok.readers, fun x hx => ?_⟩
  rcases mem_cons.1 hx with rfl | hx
  · rw [hf]; exact Or.inl rfl
  · exact ok.entries x hx

/-- `apOpenAudio` opens a file, with no other open. -/
theorem opened (ok : HandlesOK base h) (hf : h.hasOpened = false) {fd : ℕ} (hfree : h.ofile fd = none)
    (hlt : fd < nofile) (o : OpenFile) : HandlesOK base (h.opened fd o) := by
  have hbase := ok.free hf
  refine ⟨fun _ => ⟨fd, o, rfl, hlt, hbase ▸ hfree, ?_⟩, by simp [Handles.opened],
    Or.inl (ok.no_readers hf), fun x hx => ?_⟩
  · show update h.ofile fd (some o) = _
    rw [hbase]
  · rcases mem_cons.1 hx with rfl | hx
    · rw [hf]; exact Or.inl rfl
    · exact ok.entries x hx

/-- A reader is forked for a file that was just opened. -/
theorem forked (ok : HandlesOK base h) (ho : h.hasOpened = true) (hr : h.readers = []) (pid : ℕ) :
    HandlesOK base (h.forked pid) := by
  refine ⟨ok.held, ok.free, Or.inr ⟨ho, ⟨pid, h.ofile h.fd.toNat⟩, ?_, rfl⟩, ok.entries⟩
  show _ :: h.readers = _
  rw [hr]

/-- The file that is open is closed. -/
theorem closed (ok : HandlesOK base h) (ho : h.hasOpened = true) : HandlesOK base h.closed := by
  obtain ⟨fd, o, hfd, hlt, hfree, hofile⟩ := ok.held ho
  refine ⟨by simp [Handles.closed], fun _ => ?_, Or.inl ?_, fun x hx => ?_⟩
  · unfold Handles.closed
    simp only [hfd, hofile]
    exact Player.close_update hfree hlt
  · show h.readers.filter _ = []
    rcases ok.readers with hr | ⟨-, r, hr, hpid⟩
    · rw [hr]; rfl
    · rw [hr]; simp [hpid]
  · rcases mem_cons.1 hx with rfl | hx
    · rw [ho]; exact Or.inr rfl
    · exact ok.entries x hx

end HandlesOK

namespace Player

variable {base : ℕ → Option OpenFile} {p p' : Player} {L : Layout}

/-- Closing the file, if one is open. -/
theorem close_ok (ok : HandlesOK base p.handles) :
    HandlesOK base (if p.apinfo.hasOpened then p.apCloseAudio.1 else p).handles ∧
      (if p.apinfo.hasOpened then p.apCloseAudio.1 else p).handles.hasOpened = false := by
  cases hop : p.apinfo.hasOpened with
  | true =>
    rw [if_pos rfl, apCloseAudio_handles]
    exact ⟨ok.closed hop, rfl⟩
  | false =>
    rw [if_neg (by simp)]
    exact ⟨ok, hop⟩

/-- `open` closes the old file before it opens the new one. -/
theorem runOpen_ok (ok : HandlesOK base p.handles) (c : Cmd) (e : Outcome) :
    HandlesOK base (p.runOpen c e).handles := by
  unfold runOpen
  split
  · exact ok
  · -- an open file is closed first, so `apOpenAudio` finds none
    simp only
    obtain ⟨ok1, hf⟩ := close_ok ok
    set p1 := if p.apinfo.hasOpened then p.apCloseAudio.1 else p
    rcases apOpenAudio_cases p1 (arg c 1) e with ⟨hret, hh⟩ | ⟨f, fd, h, p2, ho⟩
    · rw [if_neg (by rw [hret]; decide), hh]
      exact ok1.refused hf
    · -- a `fork` that fails leaves the file open, without a reader
      have ok2 := ok1.opened hf ho.free ho.fd_lt h.file
      rw [← ho.handles] at ok2
      have hr : (p1.apOpenAudio (arg c 1) e).1.handles.readers = [] := by
        rw [ho.handles]; exact ok1.no_readers hf
      have hopen : (p1.apOpenAudio (arg c 1) e).1.handles.hasOpened = true := by
        rw [ho.handles]; rfl
      rw [if_pos (by rw [ho.result]; exact Int.natCast_nonneg fd), apSetPlay_handles,
        apReadDecode_handles, apShowAudioInfo_handles]
      cases e.fork with
      | none => exact ok2
      | some pid => exact ok2.forked hopen hr pid

/-- **Every command keeps the invariant.** -/
theorem runcmd_ok (ok : HandlesOK base p.handles) (c : Cmd) (e : Outcome) :
    HandlesOK base (p.runcmd c e).handles := by
  unfold runcmd
  split
  · exact ok
  · rw [showHelp_handles]; exact ok
  · exact runOpen_ok ok c e
  · unfold runVolume
    split
    · exact ok
    · split
      · exact ok
      · simp only
        split <;> simpa using ok
  · unfold runSpeed
    split
    · exact ok
    · split
      · exact ok
      · simp only
        split <;> simpa using ok
  · split <;> simpa using ok
  · split <;> simpa using ok
  · rename_i htype
    split
    · rename_i hop
      rw [apCloseAudio_handles]
      exact ok.closed hop
    · exact ok
  · exact (close_ok ok).1

/-- **The step lemma**: a command, or what the sound card does in between. -/
theorem step_ok (ok : HandlesOK base p.handles) {ev : Event} (h : p.step L ev = some p') :
    HandlesOK base p'.handles := by
  cases ev with
  | cmd c e =>
    simp only [step] at h
    split at h
    · simp at h
    · cases h
      exact runcmd_ok ok c e
  | sound a =>
    obtain ⟨s, -, rfl⟩ := map_eq_some_iff.1 h
    exact ok

end Player

/-- **The session invariant.** The player starts with any inherited descriptors; the
commands, what their system calls find, and the steps of readers and sound card in
between are arbitrary. At every prompt the player holds exactly the descriptor
`apinfo->fd` if a file is open and none if not, it has at most one reader it has not
killed, and none if no file is open; and `apOpenAudio` was only entered with no file
open, `apCloseAudio` only with one. -/
theorem session_invariant (L : Layout) (base : ℕ → Option OpenFile) (s : Sys) (c : Codec)
    (junk : ApAudioPlayInfo) {evs : List Event} {p : Player}
    (h : exec (Player.step L) (.start base s c junk) evs = some p) :
    (p.apinfo.hasOpened = true →
      ∀ fd : ℕ, ((p.ofile fd).isSome ∧ base fd = none) ↔ (fd : ℤ) = p.apinfo.fd) ∧
    (p.apinfo.hasOpened = false → ∀ fd : ℕ, ¬ ((p.ofile fd).isSome ∧ base fd = none)) ∧
    p.readers.length ≤ 1 ∧ (p.apinfo.hasOpened = false → p.readers = []) ∧
    ∀ x ∈ p.entries, x = .openAudio false ∨ x = .closeAudio true := by
  have hstart : HandlesOK base (Player.start base s c junk).handles :=
    ⟨by simp [Player.start, Player.handles], fun _ => rfl, Or.inl rfl, by simp [Player.start,
      Player.handles]⟩
  have ok : HandlesOK base p.handles := exec_inv (fun _ _ _ ok hs => Player.step_ok ok hs) hstart h
  refine ⟨fun ho fd => ?_, fun hf fd hfd => ?_, ?_, ok.no_readers, ok.entries⟩
  · obtain ⟨n, o, hn, hlt, hfree, hofile⟩ := ok.held ho
    have hofile : p.ofile = update base n (some o) := hofile
    have hn : p.apinfo.fd = n := hn
    rw [hofile, hn, Nat.cast_inj]
    constructor
    · rintro ⟨hsome, hnone⟩
      by_contra hne
      rw [update_of_ne hne, hnone] at hsome
      simp at hsome
    · rintro rfl
      exact ⟨by simp, hfree⟩
  · have hofile : p.ofile = base := ok.free hf
    rw [hofile, hfd.2] at hfd
    simp at hfd
  · have hr : p.readers = [] ∨ _ := ok.readers
    rcases hr with hr | ⟨-, r, hr, -⟩
    · rw [hr]; simp
    · rw [show p.readers = [r] from hr]; simp

/-- What the calls of a command find for a stereo file of 16 bit samples. -/
def songOutcome (fork : Option ℕ) : Outcome :=
  ⟨some ⟨canonicalHead 2 44100 16 4 ++ [1, 2, 3, 4], by decide⟩, fun _ => 0, [], fork⟩

/-- The player at its first prompt, with the console on descriptors 0 to 2. -/
def Player.fresh : Player :=
  .start (fun fd => if fd < 3 then some ⟨⟨[], by decide⟩, 0⟩ else none) (.boot .sample) ⟨0, 0, 0, 0, 0⟩
    ⟨false, 0, 0, [], .wav, ⟨0, 0, 0, 0, 0⟩, ⟨[], 0, [], [], 0, 0, 0, [], 0, 0⟩, 0, 0, 0, 0⟩

/-- A file is opened, paused and replaced by another. -/
def twoOpens : List Event :=
  [.cmd ⟨.open, ["open".toList, "a.wav".toList]⟩ (songOutcome (some 4)),
    .cmd ⟨.pause, ["pause".toList]⟩ (songOutcome none),
    .cmd ⟨.open, ["open".toList, "b.wav".toList]⟩ (songOutcome (some 5))]

theorem session_invariant_twoOpens :
    ∃ p, exec (Player.step .sample) .fresh twoOpens = some p ∧ p.apinfo.hasOpened = true ∧
      (∀ fd : ℕ, ((p.ofile fd).isSome ∧ (if fd < 3 then some () else none) = none) ↔
        (fd : ℤ) = p.apinfo.fd) ∧ p.readers.length ≤ 1 := by
  have hrun : (exec (Player.step .sample) .fresh twoOpens).any
      (fun p => p.apinfo.hasOpened) := by decide +kernel
  obtain ⟨p, hp, ho⟩ := (any_eq_true _ _).1 hrun
  obtain ⟨hheld, -, hreaders, -⟩ := session_invariant .sample _ _ _ _ hp
  refine ⟨p, hp, ho, fun fd => ?_, hreaders⟩
  rw [← hheld ho fd]
  split <;> simp

end AudioPlayer
