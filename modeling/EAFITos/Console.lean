/-
Console input, `kernel/console.c`: the line editing done by `consoleintr` and the reads
of `consoleread`.  `cons.lock` is held for a whole interrupt; a read goes from one round
of its loops to the next.
-/
import EAFITos.RingBuffer
import EAFITos.Transition
import EAFITos.Proc

namespace EAFITos

open Function List Option

def INPUT_BUF_SIZE : Nat := 128

/-- `C(x)`, the character typed as control-`x`. -/
def ctrl (x : Char) : UInt8 := x.toUInt8 - '@'.toUInt8

def newline : UInt8 := '\n'.toUInt8

/-! ## What editing is -/

/-- The typed characters after editing: those that the readers may have, those of the line
that can still be edited, and those of the first that the readers have consumed. -/
structure Tty where
  committed : List UInt8
  pending : List UInt8
  taken : List UInt8

namespace Tty

/-- The number of characters that are kept for the readers. -/
def held (t : Tty) : Nat := t.committed.length + t.pending.length - t.taken.length

/-- A character joins the line, and a newline, an end of file or the last free place commits
the line. -/
def append (t : Tty) (c : UInt8) : Tty :=
  if c = newline ∨ c = ctrl 'D' ∨ t.held + 1 = INPUT_BUF_SIZE then
    { t with committed := t.committed ++ (t.pending ++ [c]), pending := [] }
  else { t with pending := t.pending ++ [c] }

/-- A character is typed. -/
def type (t : Tty) (c : UInt8) : Tty :=
  if c = ctrl 'P' then t
  else if c = ctrl 'U' then { t with pending := [] }
  else if c = ctrl 'H' ∨ c = 0x7f then { t with pending := t.pending.dropLast }
  else if c ≠ 0 ∧ t.held < INPUT_BUF_SIZE then
    t.append (if c = '\r'.toUInt8 then newline else c)
  else t

end Tty

/-- Typing consumes nothing, and what is committed stays as it is. -/
theorem Tty.type_spec (t : Tty) (c : UInt8) :
    (t.type c).taken = t.taken ∧ t.committed <+: (t.type c).committed := by
  have hrefl : t.committed <+: t.committed := prefix_rfl
  rw [type]
  split
  · exact ⟨rfl, hrefl⟩
  split
  · exact ⟨rfl, hrefl⟩
  split
  · exact ⟨rfl, hrefl⟩
  split
  · generalize (if c = '\r'.toUInt8 then newline else c) = c'
    rw [append]
    split
    · exact ⟨rfl, prefix_append _ _⟩
    · exact ⟨rfl, hrefl⟩
  · exact ⟨rfl, hrefl⟩

/-! ## The console -/

/-- Where a process stands in `consoleread`.  `target` is the length of the read, `n` what is
left of it and `dst` what it has copied out. -/
inductive ConsolePc where
  | returned (r : Int)
  /-- About to acquire `cons.lock`. -/
  | enter (target : Int)
  /-- At the head of the outer loop. -/
  | top (target n : Int) (dst : List UInt8)
  /-- At the head of the inner loop, and about to sleep in it. -/
  | wait (target n : Int) (dst : List UInt8)
  | sleep (target n : Int) (dst : List UInt8)
  /-- SLEEPING on `&cons.r`, and woken but without `cons.lock`. -/
  | asleep (target n : Int) (dst : List UInt8)
  | woken (target n : Int) (dst : List UInt8)
  /-- About to release `cons.lock` and return. -/
  | unlock (target n : Int) (dst : List UInt8)
  | killedUnlock (target : Int) (dst : List UInt8)
  deriving DecidableEq, Repr

structure ConsoleProc where
  killed : Bool
  pc : ConsolePc

/-- A read that has returned: its length, the bytes it copied out and its result. -/
structure ConsoleRead where
  target : Int
  bytes : List UInt8
  result : Int
  deriving DecidableEq, Repr

structure Console where
  buf : Nat → UInt8
  r : Nat
  w : Nat
  e : Nat
  /-- The holder of `cons.lock`. -/
  lock : Option Nat
  proc : Nat → ConsoleProc
  /-- History: what was typed and consumed. -/
  tty : Tty
  /-- History: the reads that have returned, in order. -/
  reads : List ConsoleRead
  /-- History: a read was begun while another was in progress. -/
  overlapped : Bool

inductive ConsoleEvent where
  | consoleintr (c : UInt8)
  | consoleread (p : Nat) (n : Int)
  /-- A step of a read; `copied` says whether `either_copyout` succeeds. -/
  | step (p : Nat) (copied : Bool)
  | kkill (p : Nat)
  deriving DecidableEq, Repr

/-- The process is in a read. -/
def ConsolePc.reading : ConsolePc → Bool
  | .returned _ => false
  | _ => true

def ConsolePc.wake : ConsolePc → ConsolePc
  | .asleep target n dst => .woken target n dst
  | pc => pc

namespace Console

def ring (s : Console) : RingBuffer UInt8 := ⟨s.buf, s.r, s.e⟩

def setProc (s : Console) (p : Nat) (t : ConsoleProc) : Console :=
  { s with proc := update s.proc p t }

/-- The process `p` goes on at `pc`. -/
def goto (s : Console) (p : Nat) (pc : ConsolePc) : Console :=
  s.setProc p { s.proc p with pc := pc }

/-- `wakeup(&cons.r)`. -/
def wakeup (s : Console) : Console :=
  { s with proc := fun q => { s.proc q with pc := (s.proc q).pc.wake } }

/-- `cons.e--`. -/
def erase (s : Console) : Console := { s with e := (s.e + U32 - 1) % U32 }

/-- The loop of control-U, which ends after as many rounds as `e` is ahead of `w`. -/
def killLine : Nat → Console → Console
  | 0, s => s
  | fuel + 1, s =>
    if s.e ≠ s.w ∧ s.buf ((s.e + U32 - 1) % U32 % INPUT_BUF_SIZE) ≠ newline then
      killLine fuel s.erase
    else s

/-- `cons.buf[cons.e++ % INPUT_BUF_SIZE] = c`, and the commit of a line. -/
def store (s : Console) (c : UInt8) : Console :=
  let e := (s.e + 1) % U32
  let s' := { s with buf := update s.buf (s.e % INPUT_BUF_SIZE) c, e := e }
  if c = newline ∨ c = ctrl 'D' ∨ (e + U32 - s.r) % U32 = INPUT_BUF_SIZE then
    { s' with w := e }.wakeup
  else s'

/-- The handling of a character. -/
def edit (s : Console) (c : UInt8) : Console :=
  if c = ctrl 'P' then s
  else if c = ctrl 'U' then s.killLine ((s.e + U32 - s.w) % U32)
  else if c = ctrl 'H' ∨ c = 0x7f then if s.e ≠ s.w then s.erase else s
  else if c ≠ 0 ∧ (s.e + U32 - s.r) % U32 < INPUT_BUF_SIZE then
    s.store (if c = '\r'.toUInt8 then newline else c)
  else s

def consoleintr (s : Console) (c : UInt8) : Option Console :=
  if s.lock = none then some { s.edit c with tty := s.tty.type c } else none

/-- A reader consumes the character `c`. -/
def take (s : Console) (c : UInt8) : Console :=
  { s with r := (s.r + 1) % U32, tty := { s.tty with taken := s.tty.taken ++ [c] } }

/-- The rest of a round of the outer loop, with a character in the buffer.  An end of file
that ends a partial read is put back. -/
def consume (s : Console) (p : Nat) (target n : Int) (dst : List UInt8) (copied : Bool) :
    Console :=
  let c := s.buf (s.r % INPUT_BUF_SIZE)
  if c = ctrl 'D' then
    if n < target then
      { s with r := ((s.r + 1) % U32 + U32 - 1) % U32 }.goto p (.unlock target n dst)
    else (s.take c).goto p (.unlock target n dst)
  else if copied then
    if c = newline then (s.take c).goto p (.unlock target (n - 1) (dst ++ [c]))
    else (s.take c).goto p (.top target (n - 1) (dst ++ [c]))
  else (s.take c).goto p (.unlock target n dst)

/-- The read of `p` returns. -/
def finish (s : Console) (p : Nat) (read : ConsoleRead) : Console :=
  { s with lock := none, reads := s.reads ++ [read] }.goto p (.returned read.result)

/-- The next step of process `p`, if it is not waiting for the lock or asleep. -/
def step (s : Console) (p : Nat) (copied : Bool) : Option Console :=
  match (s.proc p).pc with
  | .returned _ | .asleep _ _ _ => none
  | .enter target =>
    if s.lock = none then some ({ s with lock := some p }.goto p (.top target target []))
    else none
  | .top target n dst =>
    if 0 < n then some (s.goto p (.wait target n dst))
    else some (s.goto p (.unlock target n dst))
  | .wait target n dst =>
    if s.r = s.w then
      if (s.proc p).killed then some (s.goto p (.killedUnlock target dst))
      else some (s.goto p (.sleep target n dst))
    else some (s.consume p target n dst copied)
  | .sleep target n dst => some ({ s with lock := none }.goto p (.asleep target n dst))
  | .woken target n dst =>
    if s.lock = none then some ({ s with lock := some p }.goto p (.wait target n dst))
    else none
  | .unlock target n dst => some (s.finish p ⟨target, dst, target - n⟩)
  | .killedUnlock target dst => some (s.finish p ⟨target, dst, -1⟩)

/-- A process that is not in a read begins one. -/
def begin (s : Console) (p : Nat) (n : Int) : Option Console :=
  match (s.proc p).pc with
  | .returned _ =>
    some ({ s with
      overlapped := s.overlapped || (range NPROC).any fun q =>
        (s.proc q).pc.reading }.goto p (.enter n))
  | _ => none

def kkill (s : Console) (p : Nat) : Console :=
  s.setProc p ⟨true, (s.proc p).pc.wake⟩

def next (s : Console) : ConsoleEvent → Option Console
  | .consoleintr c => s.consoleintr c
  | .consoleread p n => if p < NPROC then s.begin p n else none
  | .step p copied => if p < NPROC then s.step p copied else none
  | .kkill p => if p < NPROC then some (s.kkill p) else none

/-- The console after `consoleinit`, with no read in progress. -/
structure Initial (s : Console) : Prop where
  r : s.r = 0
  w : s.w = 0
  e : s.e = 0
  lock : s.lock = none
  proc : ∀ p, (s.proc p).pc.reading = false
  tty : s.tty = ⟨[], [], []⟩
  reads : s.reads = []
  overlapped : s.overlapped = false

/-- The destination of every read is writable. -/
def Writable (_ : Console) : ConsoleEvent → Prop
  | .step _ copied => copied = true
  | _ => True

/-- The states in every interleaving of interrupts and reads. -/
def Reachable : Console → Prop := Machine.Reach next Writable Initial

end Console

/-! ## The buffer -/

theorem input_buf_size_lt : INPUT_BUF_SIZE < U32 := by decide

theorem input_buf_size_dvd : INPUT_BUF_SIZE ∣ U32 := by decide

/-- The buffer holds the committed characters that were not consumed, up to `w`, and then the
line that is being edited. -/
structure Buffered (ring : RingBuffer UInt8) (w : Nat) (t : Tty) (unread : List UInt8) : Prop where
  ok : ring.Ok INPUT_BUF_SIZE U32
  committed : t.committed = t.taken ++ unread
  contents : ring.contents INPUT_BUF_SIZE U32 = unread ++ t.pending
  mark : w = (ring.head + unread.length) % U32
  line : newline ∉ t.pending

namespace Buffered

variable {ring : RingBuffer UInt8} {w : Nat} {t : Tty} {unread : List UInt8}

section

variable (h : Buffered ring w t unread)
include h

theorem count : ring.count U32 = unread.length + t.pending.length := by
  rw [← RingBuffer.length_contents INPUT_BUF_SIZE U32, h.contents, length_append]

theorem held : t.held = ring.count U32 := by
  rw [h.count, Tty.held, h.committed, length_append]
  omega

theorem count_le : unread.length + t.pending.length ≤ INPUT_BUF_SIZE :=
  h.count ▸ (h.ok.tail_eq input_buf_size_lt).1

theorem lt_U32 : unread.length + t.pending.length < U32 :=
  Nat.lt_of_le_of_lt h.count_le input_buf_size_lt

/-- `cons.w - cons.r`. -/
theorem sub_r : (w + U32 - ring.head) % U32 = unread.length := by
  have hlt := h.lt_U32
  exact RingBuffer.count_of_tail (r := ⟨ring.data, ring.head, w⟩) h.ok.head (by omega) h.mark

/-- `cons.e - cons.w`. -/
theorem sub_w : (ring.tail + U32 - w) % U32 = t.pending.length := by
  have hlt := h.lt_U32
  have htail := (h.ok.tail_eq input_buf_size_lt).2
  refine RingBuffer.count_of_tail (r := ⟨ring.data, w, ring.tail⟩) ?_ (by omega) ?_
  · rw [h.mark]
    exact Nat.mod_lt _ (by decide)
  · rw [htail, h.count, h.mark, Nat.mod_add_mod, Nat.add_assoc]

/-- The test for a line with nothing left to edit. -/
theorem pending_iff : ring.tail = w ↔ t.pending = [] := by
  have hsub := h.sub_w
  constructor
  · rintro rfl
    rw [Nat.add_sub_cancel_left, Nat.mod_self] at hsub
    exact eq_nil_of_length_eq_zero hsub.symm
  · intro hnil
    rw [(h.ok.tail_eq input_buf_size_lt).2, h.count, hnil, h.mark]
    rfl

/-- The test for nothing to read. -/
theorem unread_iff : ring.head = w ↔ unread = [] := by
  have hsub := h.sub_r
  constructor
  · intro heq
    rw [← heq, Nat.add_sub_cancel_left, Nat.mod_self] at hsub
    exact eq_nil_of_length_eq_zero hsub.symm
  · intro hnil
    rw [h.mark, hnil, length_nil, Nat.add_zero, Nat.mod_eq_of_lt h.ok.head]

theorem unpush (hpending : t.pending ≠ []) :
    Buffered (ring.unpush U32) w { t with pending := t.pending.dropLast } unread := by
  have hpos : 0 < ring.count U32 := by
    have hlen := length_pos_of_ne_nil hpending
    rw [h.count]
    omega
  refine ⟨h.ok.unpush input_buf_size_lt hpos, h.committed, ?_, ?_, ?_⟩
  · rw [h.ok.contents_unpush input_buf_size_lt hpos, h.contents, dropLast_append_of_ne_nil hpending]
  · rw [RingBuffer.unpush_head]
    exact h.mark
  · exact fun hmem => h.line (dropLast_subset _ hmem)

/-- The character before `e` is not a newline. -/
theorem ne_newline (hpending : t.pending ≠ []) :
    ring.data ((ring.tail + U32 - 1) % U32 % INPUT_BUF_SIZE) ≠ newline := by
  have hpos : 0 < ring.count U32 := by
    have hlen := length_pos_of_ne_nil hpending
    rw [h.count]
    omega
  have hlast := h.ok.getLast?_contents input_buf_size_lt input_buf_size_dvd hpos
  rw [h.contents, getLast?_append_of_ne_nil _ hpending] at hlast
  have hmem := mem_of_getLast? hlast
  intro heq
  exact h.line (heq ▸ hmem)

/-- A character joins the line. -/
theorem push (hroom : ring.count U32 < INPUT_BUF_SIZE) {c : UInt8} (hc : c ≠ newline) :
    Buffered (ring.push INPUT_BUF_SIZE U32 c) w { t with pending := t.pending ++ [c] } unread := by
  refine ⟨h.ok.push input_buf_size_lt hroom c, h.committed, ?_, h.mark, ?_⟩
  · rw [h.ok.contents_push input_buf_size_lt input_buf_size_dvd hroom c, h.contents, append_assoc]
  · rw [mem_append, mem_singleton]
    rintro (hmem | heq)
    · exact h.line hmem
    · exact hc heq.symm

/-- A character joins the line and commits it. -/
theorem commit (hroom : ring.count U32 < INPUT_BUF_SIZE) (c : UInt8) :
    Buffered (ring.push INPUT_BUF_SIZE U32 c) (ring.push INPUT_BUF_SIZE U32 c).tail
      { t with committed := t.committed ++ (t.pending ++ [c]), pending := [] }
      (unread ++ (t.pending ++ [c])) := by
  refine ⟨h.ok.push input_buf_size_lt hroom c, ?_, ?_, ?_, not_mem_nil⟩
  · rw [h.committed, append_assoc]
  · rw [h.ok.contents_push input_buf_size_lt input_buf_size_dvd hroom c, h.contents,
      append_assoc, append_nil]
  · rw [h.ok.push_tail input_buf_size_lt, h.count, length_append, length_append,
      length_singleton, Nat.add_assoc]
    rfl

end

/-- A reader consumes the first committed character. -/
theorem pop {c : UInt8} (h : Buffered ring w t (c :: unread)) :
    ring.data (ring.head % INPUT_BUF_SIZE) = c ∧
      Buffered (ring.pop U32) w { t with taken := t.taken ++ [c] } unread := by
  have hpos : 0 < ring.count U32 := by
    rw [h.count, length_cons]
    omega
  have hcontents := h.ok.contents_pop input_buf_size_lt input_buf_size_dvd hpos
  rw [h.contents, cons_append, cons.injEq] at hcontents
  refine ⟨hcontents.1.symm, h.ok.pop input_buf_size_lt hpos, ?_, hcontents.2.symm, ?_, h.line⟩
  · rw [h.committed, append_assoc, singleton_append]
  · have hw := h.mark
    rw [length_cons, Nat.add_comm unread.length 1, ← Nat.add_assoc, ← Nat.mod_add_mod] at hw
    exact hw

end Buffered

namespace Console

variable {s s' : Console} {t : Tty} {unread : List UInt8} {c : UInt8}

/-- The buffer of `s` as the line discipline `t` sees it. -/
def BufferOk (s : Console) (t : Tty) : Prop := ∃ unread, Buffered s.ring s.w t unread

theorem buffered_erase (h : Buffered s.ring s.w t unread) (hpending : t.pending ≠ []) :
    Buffered s.erase.ring s.erase.w { t with pending := t.pending.dropLast } unread := by
  have hring : ∀ m, s.ring.unpush m = ⟨s.buf, s.r, (s.e + m - 1) % m⟩ := fun _ => rfl
  have hunpush := h.unpush hpending
  rw [erase]
  exact hunpush

/-- Control-U erases the line, by induction on the characters that are left of it. -/
theorem buffered_killLine (fuel : Nat) (h : Buffered s.ring s.w t unread)
    (hfuel : t.pending.length = fuel) :
    ∃ e, s.killLine fuel = { s with e := e } ∧
      Buffered ⟨s.buf, s.r, e⟩ s.w { t with pending := [] } unread := by
  induction fuel generalizing s t with
  | zero =>
    have hnil := eq_nil_of_length_eq_zero hfuel
    refine ⟨s.e, rfl, ?_⟩
    rw [← hnil]
    exact h
  | succ fuel ih =>
    have hpending : t.pending ≠ [] := ne_nil_of_length_eq_add_one hfuel
    have hne : s.e ≠ s.w := fun heq => hpending (h.pending_iff.mp heq)
    obtain ⟨e, heq, hbuffered⟩ := ih (buffered_erase h hpending)
      (by rw [length_dropLast, hfuel, Nat.add_sub_cancel])
    rw [erase] at heq hbuffered
    refine ⟨e, ?_, hbuffered⟩
    rw [killLine, if_pos ⟨hne, h.ne_newline hpending⟩, erase, heq]

/-- The typed character changes the buffer as it changes the line. -/
theorem bufferOk_store (h : Buffered s.ring s.w t unread)
    (hroom : s.ring.count U32 < INPUT_BUF_SIZE) : (s.store c).BufferOk (t.append c) := by
  have hcount : (s.ring.push INPUT_BUF_SIZE U32 c).count U32 = s.ring.count U32 + 1 :=
    RingBuffer.count_of_tail h.ok.head (by have := input_buf_size_lt; omega)
      (h.ok.push_tail input_buf_size_lt c)
  have hfull : ((s.e + 1) % U32 + U32 - s.r) % U32 = t.held + 1 := h.held ▸ hcount
  rw [store, Tty.append]
  dsimp only
  rw [hfull]
  split
  case isTrue => exact ⟨_, h.commit hroom c⟩
  case isFalse hline => exact ⟨_, h.push hroom fun heq => hline (.inl heq)⟩

theorem bufferOk_edit (h : s.BufferOk t) : (s.edit c).BufferOk (t.type c) := by
  obtain ⟨unread, h⟩ := h
  have hcount : (s.e + U32 - s.r) % U32 = t.held := h.held.symm
  rw [edit, Tty.type, hcount]
  split
  case isTrue => exact ⟨unread, h⟩
  split
  case isTrue =>
    rw [show (s.e + U32 - s.w) % U32 = t.pending.length from h.sub_w]
    obtain ⟨e, heq, hbuffered⟩ := buffered_killLine _ h rfl
    rw [heq]
    exact ⟨unread, hbuffered⟩
  split
  case isTrue =>
    split
    case isTrue hne => exact ⟨unread, buffered_erase h fun hnil => hne (h.pending_iff.mpr hnil)⟩
    case isFalse heq =>
      have hnil : t.pending = [] := h.pending_iff.mp (not_not.mp heq)
      refine ⟨unread, ?_⟩
      rw [hnil, dropLast_nil, ← hnil]
      exact h
  split
  case isTrue hroom => exact bufferOk_store h (h.held ▸ hroom.2)
  case isFalse => exact ⟨unread, h⟩

end Console

/-! ## The reads -/

/-- What a read has consumed: its bytes, or the end of file for which it returned 0. -/
def ConsoleRead.consumed (rd : ConsoleRead) : List UInt8 :=
  if rd.bytes = [] ∧ 0 < rd.target ∧ rd.result = 0 then [ctrl 'D'] else rd.bytes

/-- A read returns at most its length, at most one line and no end of file. -/
structure ConsoleRead.Ok (rd : ConsoleRead) : Prop where
  length : rd.bytes = [] ∨ (rd.bytes.length : Int) ≤ rd.target
  line : newline ∉ rd.bytes.dropLast
  eof : ctrl 'D' ∉ rd.bytes
  result : rd.result = rd.bytes.length ∨ rd.result = -1

namespace ConsolePc

/-- What a read in progress has consumed. -/
def consumed : ConsolePc → List UInt8
  | .returned _ | .enter _ => []
  | .top _ _ dst | .wait _ _ dst | .sleep _ _ dst | .asleep _ _ dst | .woken _ _ dst => dst
  | .unlock target n dst => (ConsoleRead.mk target dst (target - n)).consumed
  | .killedUnlock _ dst => dst

/-- The read goes on with `n` of its `target` bytes to come. -/
structure Partial (target n : Int) (dst : List UInt8) : Prop where
  left : n + dst.length = target
  more : dst = [] ∨ 0 ≤ n
  line : newline ∉ dst
  eof : ctrl 'D' ∉ dst

/-- What is known of a read at each place of its code. -/
def Ok : ConsolePc → Prop
  | .returned _ | .enter _ => True
  | .top target n dst => Partial target n dst
  | .wait target n dst | .sleep target n dst | .asleep target n dst | .woken target n dst =>
    Partial target n dst ∧ 0 < n
  | .unlock target n dst => (ConsoleRead.mk target dst (target - n)).Ok
  | .killedUnlock target dst => (ConsoleRead.mk target dst (-1)).Ok

theorem wake_reading (pc : ConsolePc) : pc.wake.reading = pc.reading := by cases pc <;> rfl

theorem wake_consumed (pc : ConsolePc) : pc.wake.consumed = pc.consumed := by cases pc <;> rfl

theorem Ok.wake {pc : ConsolePc} (h : pc.Ok) : pc.wake.Ok := by cases pc <;> exact h

theorem consumed_of_not_reading {pc : ConsolePc} (h : pc.reading = false) : pc.consumed = [] := by
  cases pc <;> first | rfl | cases h

end ConsolePc

namespace ConsolePc.Partial

variable {target n : Int} {dst : List UInt8} {c : UInt8}

theorem read (h : Partial target n dst) (result : Int)
    (hresult : result = target - n ∨ result = -1) : (ConsoleRead.mk target dst result).Ok := by
  have hleft := h.left
  refine ⟨?_, fun hmem => h.line (dropLast_subset _ hmem), h.eof, ?_⟩
  · exact h.more.imp id fun hn => by dsimp only; omega
  · exact hresult.imp (fun heq => by dsimp only; omega) id

theorem append (h : Partial target n dst) (hn : 0 < n) (hline : c ≠ newline) (heof : c ≠ ctrl 'D') :
    Partial target (n - 1) (dst ++ [c]) := by
  have hleft := h.left
  refine ⟨?_, .inr (by omega), ?_, ?_⟩
  · rw [length_append, length_singleton]
    omega
  · simpa using ⟨h.line, hline.symm⟩
  · simpa using ⟨h.eof, heof.symm⟩

/-- A newline ends the read. -/
theorem newline (h : Partial target n dst) (hn : 0 < n) (heof : c ≠ ctrl 'D') :
    (ConsoleRead.mk target (dst ++ [c]) (target - (n - 1))).Ok := by
  have hleft := h.left
  refine ⟨.inr ?_, ?_, ?_, .inl ?_⟩
  · simp only [length_append, length_singleton]
    omega
  · rw [dropLast_concat]
    exact h.line
  · simpa using ⟨h.eof, heof.symm⟩
  · simp only [length_append, length_singleton]
    omega

end ConsolePc.Partial

theorem ConsoleRead.consumed_of_ne {target result : Int} {dst : List UInt8}
    (h : dst ≠ [] ∨ target ≤ 0 ∨ result ≠ 0) : (ConsoleRead.mk target dst result).consumed = dst := by
  rw [consumed, if_neg]
  rintro ⟨hnil, hpos, hzero⟩
  obtain hne | hle | hne := h
  · exact hne hnil
  · exact absurd hpos (by dsimp only; omega)
  · exact hne hzero

namespace Console

variable {s s' : Console} {t : Tty} {p : Nat} {pc pc' : ConsolePc}

/-- The buffer, the reads and, as long as reads do not overlap, the order in which they have
consumed the committed characters. -/
structure Inv (s : Console) : Prop where
  buffer : s.BufferOk s.tty
  procs : ∀ p, (s.proc p).pc.Ok
  slots : ∀ p, (s.proc p).pc.reading = true → p < NPROC
  reads : ∀ rd ∈ s.reads, rd.Ok
  order : s.overlapped = false → ∃ p, (∀ q, q ≠ p → (s.proc q).pc.reading = false) ∧
    s.tty.taken = s.reads.flatMap ConsoleRead.consumed ++ (s.proc p).pc.consumed

/-- Nothing but the places of sleepers changes in the reads. -/
structure SameReads (s' s : Console) : Prop where
  reads : s'.reads = s.reads
  overlapped : s'.overlapped = s.overlapped
  procs : ∀ q, (s'.proc q).pc = (s.proc q).pc ∨ (s'.proc q).pc = (s.proc q).pc.wake

theorem SameReads.pcs (h : SameReads s' s) (q : Nat) :
    (s'.proc q).pc.reading = (s.proc q).pc.reading ∧
      (s'.proc q).pc.consumed = (s.proc q).pc.consumed := by
  obtain heq | heq := h.procs q
  · rw [heq]
    exact ⟨rfl, rfl⟩
  · rw [heq]
    exact ⟨ConsolePc.wake_reading _, ConsolePc.wake_consumed _⟩

theorem Inv.sameReads (h : Inv s) (hsame : SameReads s' s) (hbuffer : s'.BufferOk s'.tty)
    (htaken : s'.tty.taken = s.tty.taken) : Inv s' := by
  refine ⟨hbuffer, ?_, ?_, hsame.reads ▸ h.reads, ?_⟩
  · intro q
    obtain heq | heq := hsame.procs q
    · exact heq ▸ h.procs q
    · exact heq ▸ (h.procs q).wake
  · intro q hq
    exact h.slots q ((hsame.pcs q).1 ▸ hq)
  · intro hover
    obtain ⟨p, hothers, horder⟩ := h.order (hsame.overlapped ▸ hover)
    refine ⟨p, fun q hq => (hsame.pcs q).1 ▸ hothers q hq, ?_⟩
    rw [htaken, hsame.reads, (hsame.pcs p).2]
    exact horder

theorem killLine_eq (fuel : Nat) (s : Console) : ∃ e, s.killLine fuel = { s with e := e } := by
  induction fuel generalizing s with
  | zero => exact ⟨s.e, rfl⟩
  | succ fuel ih =>
    rw [killLine]
    split
    · obtain ⟨e, heq⟩ := ih s.erase
      rw [erase] at heq
      exact ⟨e, heq⟩
    · exact ⟨s.e, rfl⟩

theorem SameReads.store (s : Console) (c : UInt8) : SameReads (s.store c) s := by
  rw [Console.store]
  split
  · exact ⟨rfl, rfl, fun _ => .inr rfl⟩
  · exact ⟨rfl, rfl, fun _ => .inl rfl⟩

theorem SameReads.edit (s : Console) (c : UInt8) : SameReads (s.edit c) s := by
  have hrefl : SameReads s s := ⟨rfl, rfl, fun _ => .inl rfl⟩
  have he : ∀ e, SameReads { s with e := e } s := fun _ => ⟨rfl, rfl, fun _ => .inl rfl⟩
  rw [Console.edit]
  split
  · exact hrefl
  split
  · obtain ⟨e, heq⟩ := killLine_eq ((s.e + U32 - s.w) % U32) s
    rw [heq]
    exact he e
  split
  · split
    · exact he _
    · exact hrefl
  split
  · exact .store s _
  · exact hrefl

theorem Inv.consoleintr {c : UInt8} (h : Inv s) (hintr : s.consoleintr c = some s') : Inv s' := by
  rw [Console.consoleintr] at hintr
  split at hintr
  · obtain rfl := some.inj hintr
    have hsame := SameReads.edit s c
    exact h.sameReads ⟨hsame.reads, hsame.overlapped, hsame.procs⟩ (bufferOk_edit h.buffer)
      (s.tty.type_spec c).1
  · cases hintr

section

variable (h : Inv s) (hpc : (s.proc p).pc = pc) (hreading : pc.reading = true)
include h hpc hreading

theorem Inv.advance {extra : List UInt8} {killed : Bool}
    (hproc : s'.proc = update s.proc p ⟨killed, pc'⟩) (hbuffer : s'.BufferOk s'.tty)
    (hreads : s'.reads = s.reads) (hover : s'.overlapped = s.overlapped)
    (htaken : s'.tty.taken = s.tty.taken ++ extra) (hok : pc'.Ok)
    (hconsumed : pc'.consumed = pc.consumed ++ extra) : Inv s' := by
  have hp : p < NPROC := h.slots p (hpc ▸ hreading)
  refine ⟨hbuffer, ?_, ?_, hreads ▸ h.reads, ?_⟩
  · rw [hproc]
    exact (forall_update_iff s.proc fun _ t => t.pc.Ok).mpr ⟨hok, fun q _ => h.procs q⟩
  · rw [hproc]
    exact (forall_update_iff s.proc fun q t => t.pc.reading = true → q < NPROC).mpr
      ⟨fun _ => hp, fun q _ => h.slots q⟩
  · intro hseq
    obtain ⟨r, hothers, horder⟩ := h.order (hover ▸ hseq)
    -- the process that moves is the one whose read is in progress
    obtain rfl : p = r := by
      by_contra hne
      cases hreading.symm.trans (hpc ▸ hothers p hne)
    refine ⟨p, fun q hq => ?_, ?_⟩
    · rw [hproc, update_of_ne hq]
      exact hothers q hq
    · rw [htaken, horder, hproc, update_self, hreads, hpc, hconsumed, append_assoc]

theorem Inv.goto {l : Option Nat} (hok : pc'.Ok) (hconsumed : pc'.consumed = pc.consumed) :
    Inv ({ s with lock := l }.goto p pc') :=
  h.advance hpc hreading rfl h.buffer rfl rfl (append_nil _).symm hok
    (hconsumed.trans (append_nil _).symm)

theorem Inv.finish {rd : ConsoleRead} (hok : rd.Ok) (hconsumed : rd.consumed = pc.consumed) :
    Inv (s.finish p rd) := by
  refine ⟨h.buffer, ?_, ?_, ?_, ?_⟩
  · exact (forall_update_iff s.proc fun _ t => t.pc.Ok).mpr ⟨trivial, fun q _ => h.procs q⟩
  · exact (forall_update_iff s.proc fun q t => t.pc.reading = true → q < NPROC).mpr
      ⟨nofun, fun q _ => h.slots q⟩
  · intro rd' hmem
    obtain hmem | hmem := mem_append.mp hmem
    · exact h.reads rd' hmem
    · exact mem_singleton.mp hmem ▸ hok
  · intro hseq
    obtain ⟨r, hothers, horder⟩ := h.order hseq
    obtain rfl : p = r := by
      by_contra hne
      cases hreading.symm.trans (hpc ▸ hothers p hne)
    refine ⟨p, fun q hq => ?_, ?_⟩
    · rw [Console.finish, Console.goto, setProc]
      dsimp only
      rw [update_of_ne hq]
      exact hothers q hq
    · rw [hpc] at horder
      rw [Console.finish, Console.goto, setProc]
      dsimp only
      rw [update_self, flatMap_append, flatMap_singleton, hconsumed, horder]
      exact (append_nil _).symm

end

/-- `cons.r--` after `cons.r++`. -/
theorem unread_r {r : Nat} (h : r < U32) : ((r + 1) % U32 + U32 - 1) % U32 = r := by
  rw [U32] at *
  omega

/-- A round of the outer loop with a character to read. -/
theorem Inv.consume {target n : Int} {dst : List UInt8} (h : Inv s)
    (hpc : (s.proc p).pc = .wait target n dst) (hsome : s.r ≠ s.w) :
    Inv (s.consume p target n dst true) := by
  have hok : ConsolePc.Partial target n dst ∧ 0 < n := by
    have hok := h.procs p
    rw [hpc] at hok
    exact hok
  obtain ⟨hsofar, hn⟩ := hok
  have hleft := hsofar.left
  obtain ⟨unread, hbuf⟩ := h.buffer
  obtain _ | ⟨c, rest⟩ := unread
  · exact absurd (hbuf.unread_iff.mpr rfl) hsome
  obtain ⟨hc, hpop⟩ := hbuf.pop
  have hc : s.buf (s.r % INPUT_BUF_SIZE) = c := hc
  simp only [Console.consume, hc, if_true]
  split
  case isTrue heof =>
    split
    case isTrue hlt =>
      rw [unread_r (show s.r < U32 from hbuf.ok.head)]
      have hne : dst ≠ [] := by
        rintro rfl
        rw [length_nil] at hleft
        omega
      exact h.goto hpc rfl (hsofar.read _ (.inl rfl)) (ConsoleRead.consumed_of_ne (.inl hne))
    case isFalse hge =>
      have hnil : dst = [] := eq_nil_of_length_eq_zero (by omega)
      have hzero : target - n = 0 := by omega
      have hpos : 0 < target := by omega
      refine h.advance hpc rfl rfl ⟨rest, hpop⟩ rfl rfl rfl (hsofar.read _ (.inl rfl)) ?_
      simp only [ConsolePc.consumed, ConsoleRead.consumed, hnil, hzero, hpos, heof]
      rfl
  case isFalse heof =>
    split
    case isTrue hline =>
      refine h.advance hpc rfl rfl ⟨rest, hpop⟩ rfl rfl rfl (hsofar.newline hn heof) ?_
      exact ConsoleRead.consumed_of_ne (.inl (by simp))
    case isFalse hline =>
      exact h.advance hpc rfl rfl ⟨rest, hpop⟩ rfl rfl rfl (hsofar.append hn hline heof) rfl

theorem Inv.step (h : Inv s) (hstep : s.step p true = some s') : Inv s' := by
  have hok := h.procs p
  cases hpc : (s.proc p).pc
  all_goals simp only [Console.step, hpc] at hstep
  all_goals rw [hpc] at hok
  case returned r => cases hstep
  case asleep target n dst => cases hstep
  case enter target =>
    split at hstep
    · obtain rfl := some.inj hstep
      exact h.goto hpc rfl ⟨by simp, .inl rfl, not_mem_nil, not_mem_nil⟩ rfl
    · cases hstep
  case top target n dst =>
    have hok : ConsolePc.Partial target n dst := hok
    split at hstep
    case isTrue hn =>
      obtain rfl := some.inj hstep
      exact h.goto hpc rfl ⟨hok, hn⟩ rfl
    case isFalse hn =>
      obtain rfl := some.inj hstep
      exact h.goto hpc rfl (hok.read _ (.inl rfl)) (ConsoleRead.consumed_of_ne (.inr (by omega)))
  case wait target n dst =>
    have hok : ConsolePc.Partial target n dst ∧ 0 < n := hok
    split at hstep
    case isTrue =>
      split at hstep
      · obtain rfl := some.inj hstep
        exact h.goto hpc rfl (hok.1.read _ (.inr rfl)) rfl
      · obtain rfl := some.inj hstep
        exact h.goto hpc rfl hok rfl
    case isFalse hsome => exact some.inj hstep ▸ h.consume hpc hsome
  case sleep target n dst =>
    obtain rfl := some.inj hstep
    exact h.goto hpc rfl hok rfl
  case woken target n dst =>
    split at hstep
    · obtain rfl := some.inj hstep
      exact h.goto hpc rfl hok rfl
    · cases hstep
  case unlock target n dst => exact some.inj hstep ▸ h.finish hpc rfl hok rfl
  case killedUnlock target dst =>
    exact some.inj hstep ▸
      h.finish hpc rfl hok (ConsoleRead.consumed_of_ne (.inr (.inr (by decide))))

theorem Inv.begin {n : Int} (h : Inv s) (hp : p < NPROC) (hbegin : s.begin p n = some s') :
    Inv s' := by
  rw [Console.begin] at hbegin
  split at hbegin
  case h_2 => cases hbegin
  case h_1 r hpc =>
    obtain rfl := some.inj hbegin
    refine ⟨h.buffer, ?_, ?_, h.reads, ?_⟩
    · exact (forall_update_iff s.proc fun _ t => t.pc.Ok).mpr ⟨trivial, fun q _ => h.procs q⟩
    · exact (forall_update_iff s.proc fun q t => t.pc.reading = true → q < NPROC).mpr
        ⟨fun _ => hp, fun q _ => h.slots q⟩
    · intro hseq
      obtain ⟨hover, hnone⟩ := Bool.or_eq_false_iff.mp hseq
      have hidle : ∀ q, (s.proc q).pc.reading = false := by
        intro q
        by_contra hq
        have hq := Bool.eq_true_of_not_eq_false hq
        exact any_eq_false.mp hnone q (mem_range.mpr (h.slots q hq)) hq
      obtain ⟨r, _, horder⟩ := h.order hover
      rw [ConsolePc.consumed_of_not_reading (hidle r)] at horder
      refine ⟨p, fun q hq => ?_, ?_⟩
      · rw [Console.goto, setProc]
        dsimp only
        rw [update_of_ne hq]
        exact hidle q
      · rw [Console.goto, setProc]
        dsimp only
        rw [update_self]
        exact horder

theorem Inv.kkill (h : Inv s) (p : Nat) : Inv (s.kkill p) := by
  refine h.sameReads ⟨rfl, rfl, ?_⟩ h.buffer rfl
  exact (forall_update_iff s.proc fun q t =>
    t.pc = (s.proc q).pc ∨ t.pc = (s.proc q).pc.wake).mpr ⟨.inr rfl, fun _ _ => .inl rfl⟩

theorem Inv.next {e : ConsoleEvent} (h : Inv s) (hok : Writable s e) (hnext : s.next e = some s') :
    Inv s' := by
  cases e with
  | consoleintr c => exact h.consoleintr hnext
  | consoleread p n =>
    simp only [Console.next] at hnext
    split at hnext
    case isTrue hp => exact h.begin hp hnext
    case isFalse => cases hnext
  | step p copied =>
    obtain rfl : copied = true := hok
    simp only [Console.next] at hnext
    split at hnext
    · exact h.step hnext
    · cases hnext
  | kkill p =>
    simp only [Console.next] at hnext
    split at hnext
    · exact some.inj hnext ▸ h.kkill p
    · cases hnext

theorem Initial.inv (h : Initial s) : Inv s := by
  refine ⟨⟨[], ?_⟩, ?_, ?_, ?_, ?_⟩
  · rw [h.tty, h.w, ring, h.r, h.e]
    exact ⟨RingBuffer.ok_empty _ (by decide), rfl, RingBuffer.contents_empty _, rfl, not_mem_nil⟩
  · intro p
    have hp := h.proc p
    revert hp
    cases (s.proc p).pc <;> intro hp <;> trivial
  · intro p hp
    cases (h.proc p).symm.trans hp
  · rw [h.reads]
    nofun
  · intro _
    refine ⟨0, fun q _ => h.proc q, ?_⟩
    rw [h.tty, h.reads, ConsolePc.consumed_of_not_reading (h.proc 0)]
    rfl

theorem Reachable.inv (h : Reachable s) : Inv s := Machine.Reach.invariant (fun _ => Initial.inv)
    (fun _ _ _ hinv hok hnext => hinv.next hok hnext) h

theorem goto_tty (s : Console) (p : Nat) (pc : ConsolePc) : (s.goto p pc).tty = s.tty := rfl

theorem take_committed (s : Console) (c : UInt8) :
    (s.take c).tty.committed = s.tty.committed := by
  rw [Console.take]

theorem step_committed {copied : Bool} (hstep : s.step p copied = some s') :
    s'.tty.committed = s.tty.committed := by
  cases hpc : (s.proc p).pc
  all_goals simp only [Console.step, hpc] at hstep
  case wait target n dst =>
    split at hstep
    · split at hstep <;> exact some.inj hstep ▸ rfl
    · obtain rfl := some.inj hstep
      simp only [Console.consume]
      split
      · split
        · rw [goto_tty]
        · rw [goto_tty, take_committed]
      · split
        · split <;> rw [goto_tty, take_committed]
        · rw [goto_tty, take_committed]
  all_goals repeat split at hstep
  all_goals first | cases hstep; done | exact some.inj hstep ▸ rfl

/-- What has been committed stays as it is, and only typing adds to it. -/
theorem committed_next {e : ConsoleEvent} (hnext : s.next e = some s') :
    s.tty.committed <+: s'.tty.committed := by
  cases e with
  | consoleintr c =>
    simp only [Console.next, Console.consoleintr] at hnext
    split at hnext
    · exact some.inj hnext ▸ (s.tty.type_spec c).2
    · cases hnext
  | consoleread p n =>
    simp only [Console.next, Console.begin] at hnext
    repeat split at hnext
    all_goals first | cases hnext; done | exact some.inj hnext ▸ prefix_rfl
  | step p copied =>
    simp only [Console.next] at hnext
    split at hnext
    · exact step_committed hnext ▸ prefix_rfl
    · cases hnext
  | kkill p =>
    simp only [Console.next] at hnext
    split at hnext
    · exact some.inj hnext ▸ prefix_rfl
    · cases hnext

/-- The console in every interleaving of interrupts and reads: `r`, `w` and `e` are in order and
at most `INPUT_BUF_SIZE` apart, and `e - r` counts the characters that are held; the readers
consume the committed characters in order, and so do the reads one after the other if they do
not overlap, where an end of file is what a read of positive length consumes that returns 0; a
read returns at most one line and no end of file; and what is committed is not edited. -/
theorem console_line_discipline (h : Reachable s) :
    (s.w + U32 - s.r) % U32 ≤ (s.e + U32 - s.r) % U32 ∧
      (s.e + U32 - s.r) % U32 ≤ INPUT_BUF_SIZE ∧
      (s.e + U32 - s.r) % U32 = s.tty.held ∧
      s.tty.taken <+: s.tty.committed ∧
      (s.overlapped = false → s.reads.flatMap ConsoleRead.consumed <+: s.tty.committed) ∧
      (∀ rd ∈ s.reads, rd.Ok) ∧
      (∀ c s', s.next (.consoleintr c) = some s' → s'.tty = s.tty.type c) ∧
      ∀ e s', s.next e = some s' → s.tty.committed <+: s'.tty.committed := by
  have hinv : Inv s := Reachable.inv h
  obtain ⟨unread, hbuf⟩ := hinv.buffer
  have hr : (s.w + U32 - s.r) % U32 = unread.length := hbuf.sub_r
  have he : (s.e + U32 - s.r) % U32 = unread.length + s.tty.pending.length := hbuf.count
  have htaken : s.tty.taken <+: s.tty.committed := ⟨unread, hbuf.committed.symm⟩
  refine ⟨?_, he ▸ hbuf.count_le, hbuf.held.symm, htaken, fun hseq => ?_, hinv.reads, ?_,
    fun _ _ => committed_next⟩
  · rw [hr, he]
    exact Nat.le_add_right _ _
  · obtain ⟨p, _, horder⟩ := hinv.order hseq
    exact (horder ▸ prefix_append _ _ : _ <+: s.tty.taken).trans htaken
  · intro c s' hnext
    simp only [Console.next, Console.consoleintr] at hnext
    split at hnext
    · exact some.inj hnext ▸ rfl
    · cases hnext

/-- The console at boot. -/
def consoleinit : Console where
  buf := fun _ => 0
  r := 0
  w := 0
  e := 0
  lock := none
  proc := fun _ => ⟨false, .returned 0⟩
  tty := ⟨[], [], []⟩
  reads := []
  overlapped := false

theorem consoleinit_initial : Initial consoleinit :=
  ⟨rfl, rfl, rfl, rfl, fun _ => rfl, rfl, rfl, rfl⟩

/-- A letter that is erased, a letter, an end of file and two reads: the first returns the
letter, and the second, which finds the end of file, nothing. -/
def letterThenEof : List ConsoleEvent :=
  [.consoleintr 97, .consoleintr (ctrl 'H'), .consoleintr 98, .consoleintr (ctrl 'D')] ++
    .consoleread 0 5 :: replicate 6 (.step 0 true) ++
    .consoleread 0 5 :: replicate 4 (.step 0 true)

theorem console_line_discipline_eof :
    ∃ s, Reachable s ∧ s.reads = [⟨5, [98], 1⟩, ⟨5, [], 0⟩] ∧ s.tty.committed = [98, ctrl 'D'] ∧
      s.reads.flatMap ConsoleRead.consumed <+: s.tty.committed := by
  have hrun : (Machine.run Console.next consoleinit letterThenEof).map
      (fun s => (s.reads, s.tty.committed, s.overlapped)) =
      some ([⟨5, [98], 1⟩, ⟨5, [], 0⟩], [98, ctrl 'D'], false) := by
    decide +kernel
  obtain ⟨s, hs, hview⟩ := map_eq_some_iff.mp hrun
  have hreach : Reachable s := (Machine.Reach.start consoleinit_initial).of_run
    (by simp [letterThenEof, Writable]) hs
  simp only [Prod.mk.injEq] at hview
  obtain ⟨hreads, hcommitted, hseq⟩ := hview
  exact ⟨s, hreach, hreads, hcommitted, (console_line_discipline hreach).2.2.2.2.1 hseq⟩

end Console

end EAFITos
