/-
The descriptors, the two rings and the chains in flight, through every interleaving of
processes, interrupts and device steps.
-/
import EAFITos.Virtio

namespace EAFITos

open Function List

namespace VirtioPc

variable {i : Nat} {pc : VirtioPc}

/-- The place of a process, whether it runs, sleeps or waits for `disk.vdisk_lock`. -/
def place : VirtioPc → VirtioPc
  | .enter b write | .alloc b write | .allocAsleep b write | .allocWoken b write => .alloc b write
  | .wait b idx n | .asleep b idx n | .woken b idx n => .wait b idx n
  | .unlock n | .returned n => .returned n
  | pc => pc

/-- The process holds `disk.vdisk_lock`. -/
def holdsLock : VirtioPc → Bool
  | .alloc _ _ | .format _ _ _ | .publish _ _ _ | .wait _ _ _ | .unlock _ => true
  | _ => false

/-- The descriptors that the process has allocated. -/
def held : VirtioPc → List Nat
  | .format _ _ idx | .publish _ idx _ | .wait _ idx _ | .asleep _ idx _ | .woken _ idx _ =>
    [idx.head, idx.data, idx.status]
  | _ => []

/-- The number of a request that is filled in and not finished. -/
def serial : VirtioPc → Option Nat
  | .publish _ _ n | .wait _ _ n | .asleep _ _ n | .woken _ _ n => some n
  | _ => none

/-- The descriptors of a request that is filled in and not finished. -/
def inFlight : VirtioPc → Option DescIdx
  | .publish _ idx _ | .wait _ idx _ | .asleep _ idx _ | .woken _ idx _ => some idx
  | _ => none

theorem call_place (pc : VirtioPc) : pc.place.call = pc.call := by cases pc <;> rfl

theorem held_place (pc : VirtioPc) : pc.place.held = pc.held := by cases pc <;> rfl

end VirtioPc

namespace Virtio

variable {s s' : Virtio} {p b n : Nat} {write : Bool} {idx : DescIdx}

def place (s : Virtio) (p : Nat) : VirtioPc := (s.proc p).place

/-- The heads of the chains that were submitted and not processed. -/
def queue (s : Virtio) : List Nat :=
  s.avail.contents NUM U16 ++ s.pending ++ s.used.contents NUM U16

/-- The descriptors of a submitted request are linked, and lead to its buffer. -/
structure ChainOk (s : Virtio) (b : Nat) (idx : DescIdx) (n : Nat) : Prop where
  head : (s.desc idx.head).flags &&& VRING_DESC_F_NEXT ≠ 0 ∧ (s.desc idx.head).next = idx.data
  data : (s.desc idx.data).flags &&& VRING_DESC_F_NEXT ≠ 0 ∧
    (s.desc idx.data).next = idx.status
  status : (s.desc idx.status).flags &&& VRING_DESC_F_NEXT = 0 ∧
    (s.desc idx.status).addr = .status idx.head
  info : s.infoB idx.head = some b
  serial : s.serialOf idx.head = n

/-- A submitted request is in one of the queues with `b->disk` set, or was completed and
processed. -/
structure WaitOk (s : Virtio) (b : Nat) (idx : DescIdx) (n : Nat) : Prop where
  chain : ChainOk s b idx n
  progress : idx.head ∈ s.queue ∧ s.bufDisk b = true ∨
    idx.head ∉ s.queue ∧ s.bufDisk b = false ∧ s.completed n = true

/-- A request that is not submitted is in no queue, and its head is in the next slot of the
ring. -/
structure PublishOk (s : Virtio) (b : Nat) (idx : DescIdx) (n : Nat) : Prop where
  chain : ChainOk s b idx n
  disk : s.bufDisk b = true
  notMem : idx.head ∉ s.queue
  slot : s.avail.data (s.avail.tail % NUM) = idx.head
  fresh : s.completed n = false

/-- Each process owns the descriptors that it has allocated. -/
structure Owned (free : Nat → Bool) (place : Nat → VirtioPc) : Prop where
  held : ∀ p, ∀ i ∈ (place p).held, i < NUM ∧ free i = false
  nodup : ∀ p, (place p).held.Nodup
  apart : ∀ p q i, i ∈ (place p).held → i ∈ (place q).held → p = q

/-- The requests have numbers of their own. -/
structure Serials (serial : Nat) (place : Nat → VirtioPc) : Prop where
  older : ∀ p n, (place p).serial = some n → n < serial
  distinct : ∀ p q n, (place p).serial = some n → (place q).serial = some n → p = q

/-- There is one call at a time on a buffer, and one process with the lock. -/
structure Called (s : Virtio) : Prop where
  calls : ∀ p q b, (s.place p).call = some b → (s.place q).call = some b → p = q
  slots : ∀ p b, (s.place p).call = some b → p < NPROC
  lock : ∀ p, (s.proc p).holdsLock = true ↔ s.lock = some (.proc p)

/-- What is known of the request of each process. -/
structure Requests (s : Virtio) : Prop where
  publish : ∀ p b idx n, s.place p = .publish b idx n → PublishOk s b idx n
  wait : ∀ p b idx n, s.place p = .wait b idx n → WaitOk s b idx n
  returned : ∀ p n, s.place p = .returned n → s.completed n = true
  fresh : ∀ n, s.completed n = true → n < s.serial

/-- The rings, with the histories, and whose chains are in them. -/
structure Rings (s : Virtio) : Prop where
  avail : s.avail.Ok NUM U16
  used : s.used.Ok NUM U16
  nodup : s.queue.Nodup
  waits : ∀ x ∈ s.queue, ∃ p b idx n, s.place p = .wait b idx n ∧ idx.head = x
  done : ∀ x ∈ s.used.contents NUM U16, s.infoStatus x = 0 ∧ s.completed (s.serialOf x) = true
  submitted : s.submitted = s.accepted ++ s.avail.contents NUM U16
  completions : s.completions = s.processed ++ s.used.contents NUM U16

structure Inv (s : Virtio) : Prop where
  fine : s.panicked = none
  owned : Owned s.free s.place
  called : Called s
  serials : Serials s.serial s.place
  requests : Requests s
  rings : Rings s

theorem num_lt : NUM < U16 := by decide

theorem num_dvd : NUM ∣ U16 := by decide

theorem ChainOk.congr (h : ChainOk s b idx n)
    (hdesc : ∀ i ∈ [idx.head, idx.data, idx.status], s'.desc i = s.desc i)
    (hinfo : s'.infoB idx.head = s.infoB idx.head)
    (hserial : s'.serialOf idx.head = s.serialOf idx.head) : ChainOk s' b idx n := by
  have hhead := hdesc idx.head (by simp)
  have hdata := hdesc idx.data (by simp)
  have hstatus := hdesc idx.status (by simp)
  exact ⟨hhead ▸ h.head, hdata ▸ h.data, hstatus ▸ h.status, hinfo.trans h.info,
    hserial.trans h.serial⟩

theorem WaitOk.congr (h : WaitOk s b idx n) (hchain : ChainOk s' b idx n)
    (hqueue : idx.head ∈ s'.queue ↔ idx.head ∈ s.queue) (hdisk : s'.bufDisk b = s.bufDisk b)
    (hdone : s.completed n = true → s'.completed n = true) : WaitOk s' b idx n := by
  refine ⟨hchain, ?_⟩
  rw [hqueue, hdisk]
  exact h.progress.imp id fun hp => ⟨hp.1, hp.2.1, hdone hp.2.2⟩

/-! ## Steps that move processes only -/

/-- Processes go to sleep, wake up, and take or give up the lock. -/
theorem Inv.move {proc : Nat → VirtioPc} {l : Option VirtioHolder} (h : Inv s)
    (hplace : ∀ q, (proc q).place = s.place q)
    (hlock : ∀ q, (proc q).holdsLock = true ↔ l = some (.proc q)) :
    Inv { s with proc := proc, lock := l } := by
  have heq : place { s with proc := proc, lock := l } = s.place := funext hplace
  refine ⟨h.fine, heq ▸ h.owned, ⟨?_, ?_, hlock⟩, heq ▸ h.serials,
    ⟨?_, ?_, ?_, h.requests.fresh⟩, ⟨h.rings.avail, h.rings.used, h.rings.nodup, ?_, h.rings.done, h.rings.submitted,
      h.rings.completions⟩⟩
  · rw [heq]
    exact h.called.calls
  · rw [heq]
    exact h.called.slots
  · rw [heq]
    intro p b idx n hp
    have hold := h.requests.publish p b idx n hp
    exact ⟨hold.chain.congr (fun _ _ => rfl) rfl rfl, hold.disk, hold.notMem, hold.slot, hold.fresh⟩
  · rw [heq]
    intro p b idx n hp
    have hold := h.requests.wait p b idx n hp
    exact hold.congr (hold.chain.congr (fun _ _ => rfl) rfl rfl) Iff.rfl rfl id
  · rw [heq]
    exact h.requests.returned
  · rw [heq]
    exact h.rings.waits

/-- `proc` is `s.proc` with some sleepers woken. -/
def Roused (s : Virtio) (proc : Nat → VirtioPc) : Prop :=
  ∀ q, (proc q).place = s.place q ∧ (proc q).holdsLock = (s.proc q).holdsLock

theorem roused_wakeFree (s : Virtio) : Roused s s.wakeFree.proc := by
  intro q
  simp only [wakeFree, place]
  split
  case h_1 hq => rw [hq]; exact ⟨rfl, rfl⟩
  case h_2 => exact ⟨rfl, rfl⟩

theorem roused_wakeBuf (s : Virtio) (b : Nat) : Roused s (s.wakeBuf b).proc := by
  intro q
  simp only [wakeBuf, place]
  split
  case h_1 hq =>
    rw [hq]
    split <;> exact ⟨rfl, rfl⟩
  case h_2 => exact ⟨rfl, rfl⟩

theorem Roused.trans {proc : Nat → VirtioPc} (h : Roused s s'.proc) (h' : Roused s' proc) :
    Roused s proc := fun q => ⟨(h' q).1.trans (h q).1, (h' q).2.trans (h q).2⟩

/-- Sleepers are woken. -/
theorem Inv.rouse {proc : Nat → VirtioPc} (h : Inv s) (hproc : Roused s proc) :
    Inv { s with proc := proc } :=
  h.move (fun q => (hproc q).1) fun q => (hproc q).2 ▸ h.called.lock q

theorem Inv.goto {l : Option VirtioHolder} (h : Inv s) (hplace : pc.place = s.place p)
    (hself : pc.holdsLock = true ↔ l = some (.proc p))
    (hothers : ∀ q, q ≠ p → (l = some (.proc q) ↔ s.lock = some (.proc q))) :
    Inv ({ s with lock := l }.goto p pc) := by
  refine h.move ?_ ?_
  · exact (forall_update_iff s.proc fun q pc => pc.place = s.place q).mpr ⟨hplace, fun _ _ => rfl⟩
  · refine (forall_update_iff s.proc fun q pc =>
      pc.holdsLock = true ↔ l = some (.proc q)).mpr ⟨hself, fun q hq => ?_⟩
    exact (h.called.lock q).trans (hothers q hq).symm

/-- Taking or giving up the lock concerns no other process. -/
theorem holder_other {l l' : Option VirtioHolder} (hl : l = none ∨ l = some (.proc p))
    (hl' : l' = none ∨ l' = some (.proc p)) (q : Nat) (hq : q ≠ p) :
    l' = some (.proc q) ↔ l = some (.proc q) := by
  have hne : ∀ l : Option VirtioHolder, l = none ∨ l = some (.proc p) → l ≠ some (.proc q) := by
    rintro l (rfl | rfl) heq
    · cases heq
    · cases heq
      exact hq rfl
  exact ⟨fun h => absurd h (hne l' hl'), fun h => absurd h (hne l hl)⟩

/-! ## Allocation -/

theorem allocDesc_some (h : s.allocDesc = some (i, s')) :
    i < NUM ∧ s.free i = true ∧ s' = { s with free := update s.free i false } := by
  rw [allocDesc, Option.map_eq_some_iff] at h
  obtain ⟨j, hfind, heq⟩ := h
  cases heq
  exact ⟨mem_range.mp (mem_of_find?_eq_some hfind), find?_some hfind, rfl⟩

theorem freeDesc_ok (hi : i < NUM) (hfree : s.free i = false) :
    s.freeDesc i = .ok { s with
      desc := update s.desc i ⟨.null, 0, 0, 0⟩
      free := update s.free i true }.wakeFree := by
  rw [freeDesc, if_neg (by omega), if_neg (by rw [hfree]; decide)]

/-- `alloc3_desc` either takes three free descriptors or gives back what it got. -/
theorem alloc3Desc_cases (s : Virtio) :
    (∃ idx free, s.alloc3Desc = .ok (some idx, { s with free := free }) ∧
      [idx.head, idx.data, idx.status].Nodup ∧
      (∀ i ∈ [idx.head, idx.data, idx.status], i < NUM ∧ s.free i = true ∧ free i = false) ∧
      ∀ i, s.free i = false → free i = false) ∨
    ∃ desc proc, s.alloc3Desc = .ok (none, { s with desc := desc, proc := proc }) ∧
      (∀ i, s.free i = false → desc i = s.desc i) ∧ Roused s proc := by
  rw [alloc3Desc]
  split
  case h_1 => exact .inr ⟨s.desc, s.proc, rfl, fun _ _ => rfl, fun _ => ⟨rfl, rfl⟩⟩
  case h_2 i0 s0 h0 =>
    obtain ⟨hlt0, hfree0, rfl⟩ := allocDesc_some h0
    split
    case h_1 =>
      have hback : update (update s.free i0 false) i0 true = s.free := by
        rw [update_idem, ← hfree0, update_eq_self]
      rw [freeDesc_ok hlt0 (update_self _ _ _)]
      refine .inr ⟨update s.desc i0 ⟨.null, 0, 0, 0⟩, s.wakeFree.proc, ?_, ?_, roused_wakeFree s⟩
      · simp only [Except.map, hback]
        rfl
      · intro i hi
        exact update_of_ne (fun heq => by rw [heq, hfree0] at hi; cases hi) _ _
    case h_2 i1 s1 h1 =>
      obtain ⟨hlt1, hfree1, rfl⟩ := allocDesc_some h1
      dsimp only at hfree1
      have hne1 : i1 ≠ i0 := by
        rintro rfl
        rw [update_self] at hfree1
        cases hfree1
      rw [update_of_ne hne1] at hfree1
      split
      case h_1 =>
        have hback : update (update (update (update s.free
            i0 false) i1 false) i0 true) i1 true = s.free := by
          funext j
          simp only [update_apply]
          split_ifs with hj1 hj0
          · rw [hj1, hfree1]
          · rw [hj0, hfree0]
          · rfl
        have hheld0 : update (update s.free i0 false) i1 false i0 = false := by
          rw [update_of_ne hne1.symm, update_self]
        have hheld1 : update (update (update s.free i0 false) i1 false) i0 true i1 = false := by
          rw [update_of_ne hne1, update_self]
        rw [freeDesc_ok hlt0 hheld0, Except.bind, freeDesc_ok hlt1 hheld1]
        refine .inr ⟨update (update s.desc i0 ⟨.null, 0, 0, 0⟩) i1
          ⟨.null, 0, 0, 0⟩, s.wakeFree.wakeFree.proc, ?_, ?_,
          (roused_wakeFree s).trans (roused_wakeFree s.wakeFree)⟩
        · simp only [Except.map, wakeFree, hback]
        · intro i hi
          have hi1 : i ≠ i1 := fun heq => by rw [heq, hfree1] at hi; cases hi
          have hi0 : i ≠ i0 := fun heq => by rw [heq, hfree0] at hi; cases hi
          rw [update_of_ne hi1, update_of_ne hi0]
      case h_2 i2 s2 h2 =>
        obtain ⟨hlt2, hfree2, rfl⟩ := allocDesc_some h2
        dsimp only at hfree2
        have hne2 : i2 ≠ i1 := by
          rintro rfl
          rw [update_self] at hfree2
          cases hfree2
        rw [update_of_ne hne2] at hfree2
        have hne3 : i2 ≠ i0 := by
          rintro rfl
          rw [update_self] at hfree2
          cases hfree2
        rw [update_of_ne hne3] at hfree2
        refine .inl ⟨⟨i0, i1, i2⟩, _, rfl, ?_, ?_, ?_⟩
        · simp [hne1.symm, hne2.symm, hne3.symm]
        · simp [hlt0, hlt1, hlt2, hfree0, hfree1, hfree2, update_apply, hne1.symm,
            hne2.symm, hne3.symm]
        · intro i hi
          simp only [update_apply]
          split_ifs <;> first | rfl | exact hi

/-- The descriptors and the places of the other processes stay as they are. -/
theorem Owned.update {free free' : Nat → Bool} {place place' : Nat → VirtioPc}
    (h : Owned free place) (hplace : ∀ q, q ≠ p → place' q = place q)
    (hfree : ∀ q, q ≠ p → ∀ i ∈ (place q).held, free' i = false)
    (hnew : ∀ i ∈ (place' p).held, i < NUM ∧ free' i = false ∧ ∀ q, q ≠ p → i ∉ (place q).held)
    (hnodup : (place' p).held.Nodup) : Owned free' place' := by
  refine ⟨?_, ?_, ?_⟩
  · intro q i hi
    by_cases hq : q = p
    · subst hq
      exact ⟨(hnew i hi).1, (hnew i hi).2.1⟩
    · rw [hplace q hq] at hi
      exact ⟨(h.held q i hi).1, hfree q hq i hi⟩
  · intro q
    by_cases hq : q = p
    · exact hq ▸ hnodup
    · exact hplace q hq ▸ h.nodup q
  · intro q r i hq hr
    by_cases hqp : q = p
    · subst hqp
      by_contra hne
      rw [hplace r (Ne.symm hne)] at hr
      exact (hnew i hq).2.2 r (Ne.symm hne) hr
    · rw [hplace q hqp] at hq
      by_cases hrp : r = p
      · subst hrp
        exact absurd hq ((hnew i hr).2.2 q hqp)
      · rw [hplace r hrp] at hr
        exact h.apart q r i hq hr

theorem Owned.congr {free : Nat → Bool} {place place' : Nat → VirtioPc} (h : Owned free place)
    (hheld : ∀ q, (place' q).held = (place q).held) : Owned free place' :=
  ⟨fun q => hheld q ▸ h.held q, fun q => hheld q ▸ h.nodup q,
    fun q r => hheld q ▸ hheld r ▸ h.apart q r⟩

theorem place_goto_self (s : Virtio) (p : Nat) (pc : VirtioPc) : (s.goto p pc).place p = pc.place :=
  congrArg VirtioPc.place (update_self _ _ _)

theorem place_goto_of_ne {q : Nat} (s : Virtio) (pc : VirtioPc) (hq : q ≠ p) :
    (s.goto p pc).place q = s.place q := congrArg VirtioPc.place (update_of_ne hq _ _)

theorem Called.update (h : Called s) (hproc : s'.proc = update s.proc p pc)
    (hlock : s'.lock = s.lock) (hholds : pc.holdsLock = (s.proc p).holdsLock)
    (hcall : ∀ b, pc.call = some b → (s.proc p).call = some b) : Called s' := by
  have hcalls : ∀ q b, (s'.place q).call = some b → (s.place q).call = some b := by
    intro q b hq
    rw [place, VirtioPc.call_place, hproc] at hq
    rw [place, VirtioPc.call_place]
    by_cases hqp : q = p
    · subst hqp
      rw [update_self] at hq
      exact hcall b hq
    · rw [update_of_ne hqp] at hq
      exact hq
  refine ⟨?_, ?_, ?_⟩
  · exact fun q r b hq hr => h.calls q r b (hcalls q b hq) (hcalls r b hr)
  · exact fun q b hq => h.slots q b (hcalls q b hq)
  · rw [hproc, hlock]
    exact (forall_update_iff s.proc fun q pc => pc.holdsLock = true ↔
      s.lock = some (.proc q)).mpr ⟨hholds ▸ h.lock p, fun q _ => h.lock q⟩

theorem held_goto (hheld : pc.held = (s.place p).held) (q : Nat) :
    ((s.goto p pc).place q).held = (s.place q).held := by
  by_cases hq : q = p
  · subst hq
    rw [place_goto_self, VirtioPc.held_place, hheld]
  · rw [place_goto_of_ne _ _ hq]

theorem Serials.goto (h : Serials s.serial s.place)
    (hpc : ∀ n, pc.place.serial = some n → (s.place p).serial = some n) :
    Serials s.serial (s.goto p pc).place := by
  have hserial : ∀ q n, ((s.goto p pc).place q).serial = some n → (s.place q).serial = some n := by
    intro q n hq
    by_cases hqp : q = p
    · subst hqp
      rw [place_goto_self] at hq
      exact hpc n hq
    · rw [place_goto_of_ne _ _ hqp] at hq
      exact hq
  exact ⟨fun q n hq => h.older q n (hserial q n hq),
    fun q r n hq hr => h.distinct q r n (hserial q n hq) (hserial r n hr)⟩

theorem Inv.lock_of_publish (h : Inv s) (hp : s.place p = .publish b idx n) :
    s.lock = some (.proc p) := by
  apply (h.called.lock p).mp
  rw [place] at hp
  revert hp
  cases s.proc p <;> simp [VirtioPc.place, VirtioPc.holdsLock]

/-- While `p` has the lock, no other process is about to submit a request. -/
theorem Inv.not_publish {q : Nat} (h : Inv s) (hlock : s.lock ≠ some (.proc q)) :
    s.place q ≠ .publish b idx n := fun hq => hlock (h.lock_of_publish hq)

theorem Inv.driver (h : Inv s) (hlock : s.lock = some (.proc p))
    (hproc : s'.proc = update s.proc p pc) (hlock' : s'.lock = s.lock)
    (hholds : pc.holdsLock = true) (hcall : ∀ b, pc.call = some b → (s.proc p).call = some b)
    (hfine : s'.panicked = none) (howned : Owned s'.free s'.place)
    (hserials : Serials s'.serial s'.place)
    (hothers : ∀ q, q ≠ p → ∀ b idx n, s.place q = .wait b idx n → ChainOk s' b idx n ∧
      (idx.head ∈ s'.queue ↔ idx.head ∈ s.queue) ∧ s'.bufDisk b = s.bufDisk b)
    (hcompleted : s'.completed = s.completed) (hserial : s.serial ≤ s'.serial)
    (hpublish : ∀ b idx n, pc.place = .publish b idx n → PublishOk s' b idx n)
    (hwait : ∀ b idx n, pc.place = .wait b idx n → WaitOk s' b idx n)
    (hreturned : ∀ n, pc.place = .returned n → s.completed n = true) (hrings : Rings s') :
    Inv s' := by
  have hself : s'.place p = pc.place := by rw [place, hproc, update_self]
  have hplace : ∀ q, q ≠ p → s'.place q = s.place q := by
    intro q hq
    rw [place, place, hproc, update_of_ne hq]
  have hbefore : (s.proc p).holdsLock = true := (h.called.lock p).mpr hlock
  refine ⟨hfine, howned, h.called.update hproc hlock' (hholds.trans hbefore.symm) hcall, hserials,
    ⟨?_, ?_, ?_, ?_⟩, hrings⟩
  · intro q b idx n hq
    by_cases hqp : q = p
    · exact hpublish b idx n (by rw [← hself, ← hqp, hq])
    · rw [hplace q hqp] at hq
      refine absurd hq (h.not_publish ?_)
      rw [hlock]
      rintro ⟨⟩
      exact hqp rfl
  · intro q b idx n hq
    by_cases hqp : q = p
    · exact hwait b idx n (by rw [← hself, ← hqp, hq])
    · rw [hplace q hqp] at hq
      obtain ⟨hchain, hqueue, hdisk⟩ := hothers q hqp b idx n hq
      exact (h.requests.wait q b idx n hq).congr hchain hqueue hdisk (by rw [hcompleted]; exact id)
  · intro q n hq
    rw [hcompleted]
    by_cases hqp : q = p
    · exact hreturned n (by rw [← hself, ← hqp, hq])
    · rw [hplace q hqp] at hq
      exact h.requests.returned q n hq
  · intro n hn
    rw [hcompleted] at hn
    exact Nat.lt_of_lt_of_le (h.requests.fresh n hn) hserial

theorem Inv.lock_of_pc (h : Inv s) (hpc : s.proc p = pc) (hholds : pc.holdsLock = true) :
    s.lock = some (.proc p) := (h.called.lock p).mp (hpc ▸ hholds)

theorem Rings.congr (h : Rings s) (havail : s'.avail = s.avail) (hused : s'.used = s.used)
    (hpending : s'.pending = s.pending) (hstatus : s'.infoStatus = s.infoStatus)
    (hcompleted : s'.completed = s.completed) (hserialOf : s'.serialOf = s.serialOf)
    (hsubmitted : s'.submitted = s.submitted) (haccepted : s'.accepted = s.accepted)
    (hcompletions : s'.completions = s.completions) (hprocessed : s'.processed = s.processed)
    (hplace : ∀ q b idx n, s.place q = .wait b idx n → idx.head ∈ s.queue →
      s'.place q = .wait b idx n) : Rings s' := by
  have hqueue : s'.queue = s.queue := by rw [queue, queue, havail, hpending, hused]
  refine ⟨havail ▸ h.avail, hused ▸ h.used, hqueue ▸ h.nodup, ?_, ?_, ?_, ?_⟩
  · intro x hx
    rw [hqueue] at hx
    obtain ⟨q, b, idx, n, hq, rfl⟩ := h.waits x hx
    exact ⟨q, b, idx, n, hplace q b idx n hq hx, rfl⟩
  · rw [hused, hstatus, hcompleted, hserialOf]
    exact h.done
  · rw [hsubmitted, haccepted, havail]
    exact h.submitted
  · rw [hcompletions, hprocessed, hused]
    exact h.completions

/-- Three free descriptors are allocated. -/
theorem Inv.allocated {free : Nat → Bool} (h : Inv s) (hpc : s.proc p = .alloc b write)
    (hnodup : [idx.head, idx.data, idx.status].Nodup)
    (hidx : ∀ i ∈ [idx.head, idx.data, idx.status], i < NUM ∧ s.free i = true ∧ free i = false)
    (hkeep : ∀ i, s.free i = false → free i = false) :
    Inv ({ s with free := free }.goto p (.format b write idx)) := by
  have hplace : s.place p = .alloc b write := by rw [place, hpc]; rfl
  refine h.driver (h.lock_of_pc hpc rfl) rfl rfl rfl (by rw [hpc]; exact fun _ => id) h.fine ?_
    (h.serials.goto nofun) ?_ rfl le_rfl nofun nofun nofun ?_
  · refine h.owned.update (p := p) (fun q hq => place_goto_of_ne _ _ hq) ?_ ?_ ?_
    · exact fun q _ i hi => hkeep i (h.owned.held q i hi).2
    · rw [place_goto_self]
      intro i hi
      obtain ⟨hlt, hfree, hnew⟩ := hidx i hi
      refine ⟨hlt, hnew, fun q _ hq => ?_⟩
      cases hfree.symm.trans (h.owned.held q i hq).2
    · rw [place_goto_self]
      exact hnodup
  · intro q _ b' idx' n' hq
    exact ⟨(h.requests.wait q b' idx' n' hq).chain.congr (fun _ _ => rfl) rfl rfl, Iff.rfl, rfl⟩
  · refine h.rings.congr rfl rfl rfl rfl rfl rfl rfl rfl rfl rfl fun q b' idx' n' hq _ => ?_
    have hqp : q ≠ p := by
      rintro rfl
      cases hplace.symm.trans hq
    rw [place_goto_of_ne _ _ hqp]
    exact hq

/-- Free descriptors are written to. -/
theorem Inv.scrub {desc : Nat → VirtqDesc} (h : Inv s)
    (hdesc : ∀ i, s.free i = false → desc i = s.desc i) : Inv { s with desc := desc } := by
  have hchain : ∀ q b idx n, (s.place q).held = [idx.head, idx.data, idx.status] →
      ChainOk s b idx n → ChainOk { s with desc := desc } b idx n := by
    intro q b idx n hheld hold
    refine hold.congr (fun i hi => ?_) rfl rfl
    rw [← hheld] at hi
    exact hdesc i (h.owned.held q i hi).2
  refine ⟨h.fine, h.owned, ⟨h.called.calls, h.called.slots, h.called.lock⟩, h.serials,
    ⟨?_, ?_, h.requests.returned, h.requests.fresh⟩,
    h.rings.congr rfl rfl rfl rfl rfl rfl rfl rfl rfl rfl fun _ _ _ _ hq _ => hq⟩
  · intro q b idx n hq
    have hold := h.requests.publish q b idx n hq
    exact ⟨hchain q b idx n (by rw [show s.place q = _ from hq]; rfl) hold.chain, hold.disk,
      hold.notMem, hold.slot, hold.fresh⟩
  · intro q b idx n hq
    have hold := h.requests.wait q b idx n hq
    exact hold.congr (hchain q b idx n (by rw [show s.place q = _ from hq]; rfl) hold.chain)
      Iff.rfl rfl id

/-! ## Submission -/

theorem Inv.head_lt (h : Inv s) {x : Nat} (hx : x ∈ s.queue) : x < NUM := by
  obtain ⟨p, b, idx, n, hp, rfl⟩ := h.rings.waits x hx
  exact (h.owned.held p idx.head (by rw [hp]; simp [VirtioPc.held])).1

theorem length_le_num {l : List Nat} (hnodup : l.Nodup) (hlt : ∀ x ∈ l, x < NUM) :
    l.length ≤ NUM := by
  have hsub : l ⊆ List.range NUM := fun x hx => mem_range.mpr (hlt x hx)
  have hlen := (hnodup.subperm hsub).length_le
  rwa [length_range] at hlen

/-- The heads are distinct descriptors, so there is room for another one. -/
theorem Inv.room (h : Inv s) (hi : i < NUM) (hmem : i ∉ s.queue) :
    s.queue.length < NUM := by
  refine length_le_num (l := i :: s.queue) (nodup_cons.mpr ⟨hmem, h.rings.nodup⟩) ?_
  intro x hx
  obtain rfl | hx := mem_cons.mp hx
  · exact hi
  · exact h.head_lt hx

theorem count_avail_le (s : Virtio) : s.avail.count U16 ≤ s.queue.length := by
  rw [← RingBuffer.length_contents NUM, queue, length_append, length_append]
  omega

theorem count_used_lt (s : Virtio) (h : s.pending ≠ []) : s.used.count U16 < s.queue.length := by
  have hpos := length_pos_of_ne_nil h
  rw [← RingBuffer.length_contents NUM, queue, length_append, length_append]
  omega

theorem Inv.not_mem_queue (h : Inv s) (hi : i ∈ (s.place p).held)
    (hp : ∀ b idx n, s.place p ≠ .wait b idx n) : i ∉ s.queue := by
  intro hmem
  obtain ⟨q, b, idx, n, hq, rfl⟩ := h.rings.waits i hmem
  obtain rfl := h.owned.apart p q idx.head hi (by rw [hq]; simp [VirtioPc.held])
  exact hp b idx n hq

theorem held_wait {q : Nat} (hq : s.place q = .wait b idx n) :
    (s.place q).held = [idx.head, idx.data, idx.status] := by
  rw [hq]
  rfl

theorem chainOk_format (hnodup : [idx.head, idx.data, idx.status].Nodup) :
    ChainOk (s.format b write idx) b idx s.serial := by
  simp only [nodup_cons, mem_cons, not_mem_nil, or_false, not_or,
    not_mem_nil, not_false_eq_true, nodup_nil, and_true] at hnodup
  obtain ⟨⟨hhd, hhs⟩, hds⟩ := hnodup
  refine ⟨?_, ?_, ?_, update_self _ _ _, update_self _ _ _⟩
  · rw [format]
    dsimp only
    rw [update_of_ne hhs, update_of_ne hhd, update_self]
    exact ⟨by dsimp only; decide, rfl⟩
  · rw [format]
    dsimp only
    rw [update_of_ne hds, update_self]
    cases write
    · exact ⟨by dsimp only; decide, rfl⟩
    · exact ⟨by dsimp only; decide, rfl⟩
  · rw [format]
    dsimp only
    rw [update_self]
    exact ⟨by dsimp only; decide, rfl⟩

/-- The new request has a new number. -/
theorem Serials.format (h : Serials s.serial s.place) :
    Serials (s.serial + 1) ((s.format b write idx).goto p (.publish b idx s.serial)).place := by
  have hserial : ∀ q n, (((s.format b write idx).goto p (.publish b idx s.serial)).place q).serial =
      some n → q = p ∧ n = s.serial ∨ q ≠ p ∧ (s.place q).serial = some n := by
    intro q n hq
    by_cases hqp : q = p
    · subst hqp
      rw [place_goto_self] at hq
      exact .inl ⟨rfl, (Option.some.inj hq).symm⟩
    · rw [place_goto_of_ne _ _ hqp] at hq
      exact .inr ⟨hqp, hq⟩
  refine ⟨?_, ?_⟩
  · intro q n hq
    obtain ⟨-, rfl⟩ | ⟨-, hq⟩ := hserial q n hq
    · exact Nat.lt_succ_self _
    · exact Nat.lt_succ_of_lt (h.older q n hq)
  · intro q r n hq hr
    obtain ⟨rfl, hn⟩ | ⟨-, hq⟩ := hserial q n hq
    · obtain ⟨rfl, -⟩ | ⟨-, hr⟩ := hserial r n hr
      · rfl
      · exact absurd (h.older r n hr) (by omega)
    · obtain ⟨-, hn⟩ | ⟨-, hr⟩ := hserial r n hr
      · exact absurd (h.older q n hq) (by omega)
      · exact h.distinct q r n hq hr

/-- The descriptors of a request are filled in. -/
theorem Inv.format (h : Inv s) (hpc : s.proc p = .format b write idx) :
    Inv ((s.format b write idx).goto p (.publish b idx s.serial)) := by
  have hplace : s.place p = .format b write idx := by rw [place, hpc]; rfl
  have hheld : (s.place p).held = [idx.head, idx.data, idx.status] := by rw [hplace]; rfl
  have hnodup := hheld ▸ h.owned.nodup p
  have hhead : idx.head ∈ (s.place p).held := by rw [hheld]; simp
  have hmem : idx.head ∉ s.queue :=
    h.not_mem_queue hhead fun _ _ _ hw => nomatch hplace.symm.trans hw
  have hcount : s.avail.count U16 < NUM :=
    Nat.lt_of_le_of_lt (count_avail_le s) (h.room (h.owned.held p _ hhead).1 hmem)
  have hcontents := h.rings.avail.contents_write num_lt num_dvd hcount idx.head
  have hqueue : ((s.format b write idx).goto p (.publish b idx s.serial)).queue = s.queue :=
    congrArg (· ++ s.pending ++ s.used.contents NUM U16) hcontents
  -- the descriptors of the others are not those of `p`
  have hother : ∀ q, q ≠ p → ∀ i ∈ (s.place q).held, i ∉ [idx.head, idx.data, idx.status] :=
    fun q hq i hi hmem => hq (h.owned.apart q p i hi (hheld ▸ hmem))
  refine h.driver (h.lock_of_pc hpc rfl) rfl rfl rfl (by rw [hpc]; exact fun _ => id) h.fine ?_
    h.serials.format ?_ rfl (Nat.le_succ _) ?_ nofun nofun ?_
  · exact h.owned.congr (held_goto hheld.symm)
  · intro q hq b' idx' n' hw
    have hnot := hother q hq
    rw [held_wait hw] at hnot
    have hne : idx'.head ≠ idx.head := fun heq => hnot idx'.head (by simp) (by simp [heq])
    have hb : b' ≠ b := by
      rintro rfl
      exact hq (h.called.calls q p b' (by rw [hw]; rfl) (by rw [hplace]; rfl))
    refine ⟨(h.requests.wait q b' idx' n' hw).chain.congr ?_ ?_ ?_, by rw [hqueue], ?_⟩
    · intro i hi
      have hni := hnot i hi
      simp only [mem_cons, not_mem_nil, or_false, not_or] at hni
      change update (update (update s.desc idx.head _) idx.data _) idx.status _ i = _
      rw [update_of_ne hni.2.2, update_of_ne hni.2.1, update_of_ne hni.1]
    · exact update_of_ne hne _ _
    · exact update_of_ne hne _ _
    · exact update_of_ne hb _ _
  · rintro _ _ _ ⟨⟩
    refine ⟨(chainOk_format hnodup).congr (fun _ _ => rfl) rfl rfl, update_self _ _ _,
      hqueue ▸ hmem, update_self _ _ _, ?_⟩
    by_contra hdone
    exact Nat.lt_irrefl _ (h.requests.fresh _ (Bool.eq_true_of_not_eq_false hdone))
  · refine ⟨⟨h.rings.avail.head, h.rings.avail.tail⟩, h.rings.used, hqueue ▸ h.rings.nodup, ?_, ?_,
      h.rings.submitted.trans (congrArg _ hcontents.symm), h.rings.completions⟩
    · rw [hqueue]
      intro x hx
      obtain ⟨q, b', idx', n', hw, rfl⟩ := h.rings.waits x hx
      refine ⟨q, b', idx', n', ?_, rfl⟩
      have hqp : q ≠ p := by
        rintro rfl
        cases hplace.symm.trans hw
      rw [place_goto_of_ne _ _ hqp]
      exact hw
    · intro x hx
      have hne : x ≠ idx.head := fun heq => hmem (heq ▸ mem_append_right _ hx)
      have hold := h.rings.done x hx
      change update s.infoStatus idx.head _ x = 0 ∧
        s.completed (update s.serialOf idx.head _ x) = true
      rw [update_of_ne hne, update_of_ne hne]
      exact hold

/-- The chain is submitted. -/
theorem Inv.publish (h : Inv s) (hpc : s.proc p = .publish b idx n) :
    Inv ((s.publish idx).goto p (.wait b idx n)) := by
  have hplace : s.place p = .publish b idx n := by rw [place, hpc]; rfl
  have hheld : (s.place p).held = [idx.head, idx.data, idx.status] := by rw [hplace]; rfl
  have hhead : idx.head ∈ (s.place p).held := by rw [hheld]; simp
  have hold := h.requests.publish p b idx n hplace
  have hcount : s.avail.count U16 < NUM :=
    Nat.lt_of_le_of_lt (count_avail_le s) (h.room (h.owned.held p _ hhead).1 hold.notMem)
  have hpush : (s.publish idx).avail = s.avail.push NUM U16 idx.head :=
    (RingBuffer.push_of_slot hold.slot).symm
  have hcontents : (s.publish idx).avail.contents NUM U16 =
      s.avail.contents NUM U16 ++ [idx.head] := by
    rw [hpush]
    exact h.rings.avail.contents_push num_lt num_dvd hcount idx.head
  have hperm : ((s.publish idx).goto p (.wait b idx n)).queue.Perm (idx.head :: s.queue) := by
    change ((s.publish idx).avail.contents NUM U16 ++ s.pending ++ s.used.contents NUM U16).Perm _
    rw [hcontents, queue, append_assoc, append_assoc, append_assoc, singleton_append]
    exact perm_middle
  refine h.driver (h.lock_of_pc hpc rfl) rfl rfl rfl (by rw [hpc]; exact fun _ => id) h.fine ?_
    (h.serials.goto (by rw [hplace]; exact fun _ => id)) ?_ rfl le_rfl nofun ?_ nofun ?_
  · exact h.owned.congr (held_goto hheld.symm)
  · intro q hq b' idx' n' hw
    have hne : idx'.head ≠ idx.head := fun heq =>
      hq (h.owned.apart q p idx'.head (by rw [hw]; simp [VirtioPc.held]) (heq ▸ hhead))
    refine ⟨(h.requests.wait q b' idx' n' hw).chain.congr (fun _ _ => rfl) rfl rfl, ?_, rfl⟩
    rw [hperm.mem_iff, mem_cons, or_iff_right hne]
  · rintro _ _ _ ⟨⟩
    exact ⟨hold.chain.congr (fun _ _ => rfl) rfl rfl,
      .inl ⟨hperm.mem_iff.mpr mem_cons_self, hold.disk⟩⟩
  · refine ⟨hpush ▸ h.rings.avail.push num_lt hcount idx.head, h.rings.used,
      hperm.nodup_iff.mpr (nodup_cons.mpr ⟨hold.notMem, h.rings.nodup⟩), ?_, h.rings.done, ?_,
      h.rings.completions⟩
    · intro x hx
      obtain rfl | hx := mem_cons.mp (hperm.mem_iff.mp hx)
      · exact ⟨p, b, idx, n, place_goto_self _ _ _, rfl⟩
      · obtain ⟨q, b', idx', n', hw, rfl⟩ := h.rings.waits x hx
        have hqp : q ≠ p := by
          rintro rfl
          cases hplace.symm.trans hw
        exact ⟨q, b', idx', n', (place_goto_of_ne _ _ hqp).trans hw, rfl⟩
    · change s.submitted ++ [idx.head] = s.accepted ++ (s.publish idx).avail.contents NUM U16
      rw [h.rings.submitted, hcontents, append_assoc]

/-! ## Release -/

/-- The state after `free_desc(i)`. -/
def freed (s : Virtio) (i : Nat) : Virtio :=
  { s with
    desc := update s.desc i ⟨.null, 0, 0, 0⟩
    free := update s.free i true }.wakeFree

theorem freeChain_next {fuel : Nat} (hi : i < NUM) (hfree : s.free i = false)
    (hflag : (s.desc i).flags &&& VRING_DESC_F_NEXT ≠ 0) :
    s.freeChain (fuel + 1) i = (s.freed i).freeChain fuel (s.desc i).next := by
  rw [freeChain, freeDesc_ok hi hfree]
  exact if_pos hflag

theorem freeChain_last {fuel : Nat} (hi : i < NUM) (hfree : s.free i = false)
    (hflag : (s.desc i).flags &&& VRING_DESC_F_NEXT = 0) :
    s.freeChain (fuel + 1) i = .ok (s.freed i) := by
  rw [freeChain, freeDesc_ok hi hfree]
  exact if_neg (not_not.mpr hflag)

theorem freed_of_ne {j : Nat} (h : j ≠ i) :
    (s.freed i).desc j = s.desc j ∧ (s.freed i).free j = s.free j :=
  ⟨update_of_ne h _ _, update_of_ne h _ _⟩

/-- A chain of three descriptors is freed. -/
theorem freeChain_ok (fuel : Nat)
    (hhead : (s.desc idx.head).flags &&& VRING_DESC_F_NEXT ≠ 0 ∧
      (s.desc idx.head).next = idx.data)
    (hdata : (s.desc idx.data).flags &&& VRING_DESC_F_NEXT ≠ 0 ∧
      (s.desc idx.data).next = idx.status)
    (hstatus : (s.desc idx.status).flags &&& VRING_DESC_F_NEXT = 0)
    (hnodup : [idx.head, idx.data, idx.status].Nodup)
    (hheld : ∀ i ∈ [idx.head, idx.data, idx.status], i < NUM ∧ s.free i = false) :
    s.freeChain (fuel + 3) idx.head =
      .ok (((s.freed idx.head).freed idx.data).freed idx.status) := by
  simp only [nodup_cons, mem_cons, not_mem_nil, or_false, not_or,
    not_mem_nil, not_false_eq_true, nodup_nil, and_true] at hnodup
  obtain ⟨⟨hhd, hhs⟩, hds⟩ := hnodup
  obtain ⟨hlt0, hfree0⟩ := hheld idx.head (by simp)
  obtain ⟨hlt1, hfree1⟩ := hheld idx.data (by simp)
  obtain ⟨hlt2, hfree2⟩ := hheld idx.status (by simp)
  obtain ⟨hdesc1, hsame1⟩ := freed_of_ne (s := s) (Ne.symm hhd)
  obtain ⟨hdesc2, hsame2⟩ := freed_of_ne (s := s) (Ne.symm hhs)
  obtain ⟨hdesc3, hsame3⟩ := freed_of_ne (s := s.freed idx.head) (Ne.symm hds)
  rw [freeChain_next hlt0 hfree0 hhead.1, hhead.2,
    freeChain_next hlt1 (hsame1.trans hfree1) (hdesc1 ▸ hdata.1), hdesc1, hdata.2,
    freeChain_last hlt2 (hsame3.trans (hsame2.trans hfree2)) (hdesc3.trans hdesc2 ▸ hstatus)]

theorem freed_chain (h : i ∉ [idx.head, idx.data, idx.status]) :
    (((s.freed idx.head).freed idx.data).freed idx.status).desc i = s.desc i ∧
      (((s.freed idx.head).freed idx.data).freed idx.status).free i = s.free i := by
  simp only [mem_cons, not_mem_nil, or_false, not_or] at h
  obtain ⟨hdesc0, hfree0⟩ := freed_of_ne (s := s) h.1
  obtain ⟨hdesc1, hfree1⟩ := freed_of_ne (s := s.freed idx.head) h.2.1
  obtain ⟨hdesc2, hfree2⟩ := freed_of_ne (s := (s.freed idx.head).freed idx.data) h.2.2
  exact ⟨hdesc2.trans (hdesc1.trans hdesc0), hfree2.trans (hfree1.trans hfree0)⟩

theorem roused_freed (s : Virtio) (i : Nat) : Roused s (s.freed i).proc := roused_wakeFree s

/-- The request is completed and its descriptors are given back. -/
theorem Inv.finish (h : Inv s) (hpc : s.proc p = .wait b idx n) (hdisk : s.bufDisk b = false) :
    ∃ s', { s with infoB := update s.infoB idx.head none }.freeChain (NUM + 1)
      idx.head = .ok s' ∧ Inv (s'.goto p (.unlock n)) := by
  have hplace : s.place p = .wait b idx n := by rw [place, hpc]; rfl
  have hheld := held_wait hplace
  have hwait := h.requests.wait p b idx n hplace
  obtain ⟨hmem, hdone⟩ : idx.head ∉ s.queue ∧ s.completed n = true := by
    obtain ⟨-, hset⟩ | ⟨hmem, -, hdone⟩ := hwait.progress
    · cases hdisk.symm.trans hset
    · exact ⟨hmem, hdone⟩
  let s1 : Virtio := { s with infoB := update s.infoB idx.head none }
  refine ⟨((s1.freed idx.head).freed idx.data).freed idx.status,
    freeChain_ok (s := s1) 6 hwait.chain.head hwait.chain.data hwait.chain.status.1
      (hheld ▸ h.owned.nodup p) (hheld ▸ h.owned.held p), ?_⟩
  have hroused : Roused s (((s1.freed idx.head).freed idx.data).freed idx.status).proc :=
    ((roused_freed s1 _).trans (roused_freed _ _)).trans (roused_freed _ _)
  have hother : ∀ q, q ≠ p → ∀ i ∈ (s.place q).held, i ∉ [idx.head, idx.data, idx.status] :=
    fun q hq i hi hmem => hq (h.owned.apart q p i hi (hheld ▸ hmem))
  let s0 : Virtio := { s with proc := (((s1.freed idx.head).freed idx.data).freed idx.status).proc }
  have h0 : Inv s0 := h.rouse hroused
  have hplace0 : ∀ q, s0.place q = s.place q := fun q => (hroused q).1
  refine h0.driver (h.lock_of_pc hpc rfl) rfl rfl rfl nofun h.fine ?_ (h0.serials.goto nofun) ?_
    rfl le_rfl nofun nofun (fun n' hn => by cases hn; exact hdone) ?_
  · refine h0.owned.update (p := p) (fun q hq => place_goto_of_ne _ _ hq) ?_ ?_ ?_
    · intro q hq i hi
      rw [hplace0 q] at hi
      exact (freed_chain (s := s1) (hother q hq i hi)).2.trans (h.owned.held q i hi).2
    · rw [place_goto_self]
      nofun
    · rw [place_goto_self]
      exact nodup_nil
  · intro q hq b' idx' n' hw
    rw [hplace0 q] at hw
    have hnot := hother q hq
    rw [held_wait hw] at hnot
    have hne : idx'.head ≠ idx.head := fun heq => hnot idx'.head (by simp) (by simp [heq])
    refine ⟨(h.requests.wait q b' idx' n' hw).chain.congr ?_ ?_ rfl, Iff.rfl, rfl⟩
    · exact fun i hi => (freed_chain (s := s1) (hnot i hi)).1
    · exact update_of_ne hne _ _
  · refine h0.rings.congr rfl rfl rfl rfl rfl rfl rfl rfl rfl rfl fun q b' idx' n' hw hq => ?_
    have hqp : q ≠ p := by
      rintro rfl
      rw [hplace0 q, hplace] at hw
      cases hw
      exact hmem hq
    rw [place_goto_of_ne _ _ hqp]
    exact hw

/-! ## The device and its interrupts -/

section

variable (h : Inv s)
include h

/-- A step of the device leaves the descriptors to the driver, and may only reorder the queue. -/
theorem Inv.device (hfine : s'.panicked = s.panicked) (hfree : s'.free = s.free)
    (hproc : s'.proc = s.proc) (hlock : s'.lock = s.lock) (hdesc : s'.desc = s.desc)
    (hinfo : s'.infoB = s.infoB) (hserialOf : s'.serialOf = s.serialOf)
    (hserial : s'.serial = s.serial) (hdisk : s'.bufDisk = s.bufDisk)
    (hdata : s'.avail.data = s.avail.data) (htail : s'.avail.tail = s.avail.tail)
    (hqueue : s'.queue.Perm s.queue) (hdone : ∀ n, s.completed n = true → s'.completed n = true)
    (hnew : ∀ n, s'.completed n = true → s.completed n = true ∨
      ∃ q b idx, s.place q = .wait b idx n) (hrings : s'.avail.Ok NUM U16 ∧ s'.used.Ok NUM U16)
    (hstatus : ∀ x ∈ s'.used.contents NUM U16, s'.infoStatus x = 0 ∧
      s'.completed (s'.serialOf x) = true)
    (hsubmitted : s'.submitted = s'.accepted ++ s'.avail.contents NUM U16)
    (hcompletions : s'.completions = s'.processed ++ s'.used.contents NUM U16) : Inv s' := by
  have hplace : s'.place = s.place := by
    funext q
    rw [place, place, hproc]
  have hchain : ∀ b idx n, ChainOk s b idx n → ChainOk s' b idx n := fun b idx n hold =>
    hold.congr (fun i _ => by rw [hdesc]) (by rw [hinfo]) (by rw [hserialOf])
  refine ⟨hfine.trans h.fine, hfree ▸ hplace ▸ h.owned, ⟨?_, ?_, ?_⟩, hserial ▸ hplace ▸ h.serials,
    ⟨?_, ?_, ?_, ?_⟩, ⟨hrings.1, hrings.2, hqueue.nodup_iff.mpr h.rings.nodup, ?_, hstatus,
      hsubmitted, hcompletions⟩⟩
  · rw [hplace]
    exact h.called.calls
  · rw [hplace]
    exact h.called.slots
  · rw [hproc, hlock]
    exact h.called.lock
  · rw [hplace]
    intro p b idx n hp
    have hold := h.requests.publish p b idx n hp
    refine ⟨hchain b idx n hold.chain, hdisk ▸ hold.disk, hqueue.mem_iff.not.mpr hold.notMem, ?_, ?_⟩
    · rw [hdata, htail]
      exact hold.slot
    · by_contra hset
      obtain hset | ⟨q, b', idx', hq⟩ := hnew n (Bool.eq_true_of_not_eq_false hset)
      · cases hold.fresh.symm.trans hset
      · obtain rfl := h.serials.distinct p q n (by rw [hp]; rfl) (by rw [hq]; rfl)
        cases hp.symm.trans hq
  · rw [hplace]
    intro p b idx n hp
    have hold := h.requests.wait p b idx n hp
    exact hold.congr (hchain b idx n hold.chain) hqueue.mem_iff (by rw [hdisk]) (hdone n)
  · rw [hplace]
    exact fun p n hp => hdone n (h.requests.returned p n hp)
  · intro n hn
    rw [hserial]
    obtain hn | ⟨q, b, idx, hq⟩ := hnew n hn
    · exact h.requests.fresh n hn
    · exact h.serials.older q n (by rw [hq]; rfl)
  · rw [hplace]
    exact fun x hx => h.rings.waits x (hqueue.mem_iff.mp hx)

/-- The device takes a chain from `avail->ring`. -/
theorem Inv.take (htake : s.take = some s') : Inv s' := by
  obtain ⟨hne, rfl⟩ := Machine.of_guard htake
  have hpos : 0 < s.avail.count U16 :=
    Nat.pos_of_ne_zero fun hzero => hne ((h.rings.avail.empty_iff num_lt).mpr hzero)
  have hcontents := h.rings.avail.contents_pop num_lt num_dvd hpos
  refine h.device rfl rfl rfl rfl rfl rfl rfl rfl rfl rfl rfl ?_ (fun _ => id) (fun _ => .inl)
    ⟨h.rings.avail.pop num_lt hpos, h.rings.used⟩ h.rings.done ?_ h.rings.completions
  · rw [queue, queue, hcontents]
    refine List.Perm.append_right _ ?_
    dsimp only
    rw [← append_assoc]
    exact perm_append_singleton _ _
  · rw [h.rings.submitted, hcontents, append_assoc, singleton_append]
    rfl

/-- The device completes a chain that it has taken. -/
theorem Inv.complete {id : Nat} (hcomplete : s.complete id = some s') : Inv s' := by
  obtain ⟨hmem, rfl⟩ := Machine.of_guard hcomplete
  have hqueue : id ∈ s.queue := mem_append_left _ (mem_append_right _ hmem)
  obtain ⟨p, b, idx, n, hp, rfl⟩ := h.rings.waits id hqueue
  have hchain := (h.requests.wait p b idx n hp).chain
  have hcount : s.used.count U16 < NUM := Nat.lt_of_lt_of_le (count_used_lt s (ne_nil_of_mem hmem))
      (length_le_num h.rings.nodup fun _ => h.head_lt)
  have hcontents := h.rings.used.contents_push num_lt num_dvd hcount idx.head
  have hstatus : (s.desc (s.desc (s.desc idx.head).next).next).addr = .status idx.head := by
    rw [hchain.head.2, hchain.data.2, hchain.status.2]
  rw [hstatus, hchain.serial]
  have hdone : ∀ n', s.completed n' = true → update s.completed n true n' = true := by
    intro n' hn'
    rw [update_apply]
    split
    · rfl
    · exact hn'
  refine h.device rfl rfl rfl rfl rfl rfl rfl rfl rfl rfl rfl ?_ hdone ?_
    ⟨h.rings.avail, h.rings.used.push num_lt hcount idx.head⟩ ?_ h.rings.submitted ?_
  · rw [queue, queue]
    rw [hcontents, ← append_assoc, append_assoc, append_assoc, append_assoc]
    refine List.Perm.append_left _ ?_
    rw [← append_assoc]
    have hperm := (perm_cons_erase hmem).append_right (s.used.contents NUM U16)
    exact (perm_append_singleton _ _).trans hperm.symm
  · intro n' hn'
    dsimp only at hn'
    by_cases heq : n' = n
    · exact .inr ⟨p, b, idx, heq ▸ hp⟩
    · rw [update_of_ne heq] at hn'
      exact .inl hn'
  · intro x hx
    dsimp only at hx ⊢
    rw [hcontents, mem_append, mem_singleton] at hx
    obtain hx | rfl := hx
    · refine ⟨?_, hdone _ (h.rings.done x hx).2⟩
      rw [update_apply]
      split
      · rfl
      · exact (h.rings.done x hx).1
    · exact ⟨update_self _ _ _, by rw [hchain.serial, update_self]⟩
  · rw [hcontents, h.rings.completions, append_assoc]

/-- The handler takes the completed chain of `p` from `used->ring`. -/
theorem Inv.processed (hlock : s.lock = some .intr) (hp : s.place p = .wait b idx n)
    (hpos : 0 < s.used.count U16) (hfront : s.used.front NUM = idx.head) :
    Inv { s with
      bufDisk := update s.bufDisk b false
      used := s.used.pop U16
      processed := s.processed ++ [idx.head] } := by
  have hcontents := h.rings.used.contents_pop num_lt num_dvd hpos
  rw [hfront] at hcontents
  have hold := h.requests.wait p b idx n hp
  have hused : ∀ x ∈ (s.used.pop U16).contents NUM U16, x ∈ s.used.contents NUM U16 := by
    intro x hx
    rw [hcontents]
    exact mem_cons_of_mem _ hx
  have hperm : s.queue.Perm (idx.head ::
      (s.avail.contents NUM U16 ++ s.pending ++ (s.used.pop U16).contents NUM U16)) := by
    rw [queue, hcontents]
    exact perm_middle
  have hnodup := hperm.nodup_iff.mp h.rings.nodup
  rw [nodup_cons] at hnodup
  have hdone : s.completed n = true := by
    have hmem : idx.head ∈ s.used.contents NUM U16 := by
      rw [hcontents]
      exact mem_cons_self
    exact hold.chain.serial ▸ (h.rings.done idx.head hmem).2
  refine ⟨h.fine, h.owned, ⟨h.called.calls, h.called.slots, h.called.lock⟩, h.serials,
    ⟨?_, ?_, h.requests.returned, h.requests.fresh⟩,
    ⟨h.rings.avail, h.rings.used.pop num_lt hpos, hnodup.2, ?_, ?_, h.rings.submitted, ?_⟩⟩
  · intro q b' idx' n' hq
    refine absurd hq (h.not_publish ?_)
    rw [hlock]
    nofun
  · intro q b' idx' n' hq
    have hwait := h.requests.wait q b' idx' n' hq
    by_cases hqp : q = p
    · subst hqp
      cases hp.symm.trans hq
      exact ⟨hwait.chain.congr (fun _ _ => rfl) rfl rfl, .inr ⟨hnodup.1, update_self _ _ _, hdone⟩⟩
    · have hne : idx'.head ≠ idx.head := fun heq => hqp (h.owned.apart q p idx'.head
        (by rw [show s.place q = _ from hq]; simp [VirtioPc.held])
        (by rw [hp, heq]; simp [VirtioPc.held]))
      have hb : b' ≠ b := by
        rintro rfl
        exact hqp (h.called.calls q p b' (by rw [show s.place q = _ from hq]; rfl)
          (by rw [hp]; rfl))
      refine hwait.congr (hwait.chain.congr (fun _ _ => rfl) rfl rfl) ?_ (update_of_ne hb _ _) id
      rw [hperm.mem_iff, mem_cons, or_iff_right hne]
      rfl
  · exact fun x hx => h.rings.waits x (hperm.mem_iff.mpr (mem_cons_of_mem _ hx))
  · exact fun x hx => h.rings.done x (hused x hx)
  · dsimp only
    rw [h.rings.completions, hcontents, append_assoc, singleton_append]

/-- A round of the loop of the interrupt handler. -/
theorem Inv.intrStep (hlock : s.lock = some .intr) : Inv s.intrStep := by
  rw [Virtio.intrStep]
  split
  case isFalse =>
    refine h.move (fun _ => rfl) fun q => ?_
    rw [h.called.lock q, hlock]
    exact ⟨nofun, nofun⟩
  case isTrue hne =>
    have hpos : 0 < s.used.count U16 :=
      Nat.pos_of_ne_zero fun hzero => hne ((h.rings.used.empty_iff num_lt).mpr hzero)
    have hmem : s.used.front NUM ∈ s.used.contents NUM U16 := by
      rw [h.rings.used.contents_pop num_lt num_dvd hpos]
      exact mem_cons_self
    obtain ⟨p, b, idx, n, hp, hfront⟩ := h.rings.waits _ (mem_append_right _ hmem)
    have hstatus : s.infoStatus idx.head = 0 := hfront ▸ (h.rings.done _ hmem).1
    have hinfo : s.infoB idx.head = some b := (h.requests.wait p b idx n hp).chain.info
    have hid : s.used.data (s.used.head % NUM) = idx.head := hfront.symm
    simp only [hid, hstatus, hinfo, ne_eq, not_true_eq_false, if_false]
    have h0 : Inv (s.wakeBuf b) := h.rouse (roused_wakeBuf s b)
    exact h0.processed hlock (((roused_wakeBuf s b) p).1.trans hp) hpos hfront.symm

theorem Inv.step (hstep : s.step p = some s') : Inv s' := by
  cases hpc : s.proc p
  all_goals simp only [Virtio.step, hpc] at hstep
  case idle => cases hstep
  case returned n => cases hstep
  case allocAsleep b write => cases hstep
  case asleep b idx n => cases hstep
  case enter b write =>
    obtain ⟨hfree, rfl⟩ := Machine.of_guard hstep
    exact h.goto (by rw [place, hpc]; rfl) ⟨fun _ => rfl, fun _ => rfl⟩
      (holder_other (.inl hfree) (.inr rfl))
  case allocWoken b write =>
    obtain ⟨hfree, rfl⟩ := Machine.of_guard hstep
    exact h.goto (by rw [place, hpc]; rfl) ⟨fun _ => rfl, fun _ => rfl⟩
      (holder_other (.inl hfree) (.inr rfl))
  case woken b idx n =>
    obtain ⟨hfree, rfl⟩ := Machine.of_guard hstep
    exact h.goto (by rw [place, hpc]; rfl) ⟨fun _ => rfl, fun _ => rfl⟩
      (holder_other (.inl hfree) (.inr rfl))
  case alloc b write =>
    obtain ⟨idx, free, heq, hnodup, hidx, hkeep⟩ | ⟨desc, proc, heq, hdesc, hroused⟩ :=
      alloc3Desc_cases s
    · rw [heq] at hstep
      exact Option.some.inj hstep ▸ h.allocated hpc hnodup hidx hkeep
    · rw [heq] at hstep
      obtain rfl := Option.some.inj hstep
      have h0 : Inv { s with desc := desc, proc := proc } := (h.scrub hdesc).rouse hroused
      exact h0.goto ((hroused p).1.trans (by rw [place, hpc]; rfl)).symm ⟨nofun, nofun⟩
        (holder_other (.inr (h.lock_of_pc hpc rfl)) (.inl rfl))
  case format b write idx => exact Option.some.inj hstep ▸ h.format hpc
  case publish b idx n => exact Option.some.inj hstep ▸ h.publish hpc
  case wait b idx n =>
    split at hstep
    case isTrue =>
      obtain rfl := Option.some.inj hstep
      exact h.goto (by rw [place, hpc]; rfl) ⟨nofun, nofun⟩
        (holder_other (.inr (h.lock_of_pc hpc rfl)) (.inl rfl))
    case isFalse hdisk =>
      obtain ⟨s1, heq, hinv⟩ := h.finish hpc (Bool.eq_false_of_not_eq_true hdisk)
      rw [heq] at hstep
      exact Option.some.inj hstep ▸ hinv
  case unlock n =>
    obtain rfl := Option.some.inj hstep
    exact h.goto (by rw [place, hpc]; rfl) ⟨nofun, nofun⟩
      (holder_other (.inr (h.lock_of_pc hpc rfl)) (.inl rfl))

end

theorem begin_eq (h : s.begin p b write = some s') :
    (s.place p = .idle ∨ ∃ n, s.place p = .returned n) ∧ (s.proc p).holdsLock = false ∧
      (∀ q, q < NPROC → (s.proc q).call ≠ some b) ∧ s' = s.goto p (.enter b write) := by
  rw [Virtio.begin] at h
  split at h
  case h_3 => cases h
  all_goals
    rename_i hpc
    obtain ⟨hfree, h⟩ := Option.ite_none_right_eq_some.mp h
    rw [all_eq_true] at hfree
    refine ⟨?_, by rw [hpc]; rfl, fun q hq => ?_, (Option.some.inj h).symm⟩
    · simp [place, hpc, VirtioPc.place]
    · exact of_decide_eq_true (hfree q (mem_range.mpr hq))

theorem Inv.begin (h : Inv s) (hp : p < NPROC) (hbegin : s.begin p b write = some s') : Inv s' := by
  obtain ⟨hplace, hlock, hcalls, rfl⟩ := begin_eq hbegin
  have hold : ∀ q, q ≠ p → (s.goto p (.enter b write)).place q = s.place q :=
    fun q hq => place_goto_of_ne _ _ hq
  have hself : (s.goto p (.enter b write)).place p = .alloc b write := place_goto_self _ _ _
  have hnone : (s.place p).held = [] ∧ ∀ b' idx n, s.place p ≠ .wait b' idx n := by
    obtain heq | ⟨n, heq⟩ := hplace
    · rw [heq]
      exact ⟨rfl, nofun⟩
    · rw [heq]
      exact ⟨rfl, nofun⟩
  have hcall : ∀ q, (s.place q).call ≠ some b := by
    intro q hq
    have hlt := h.called.slots q b hq
    rw [place, VirtioPc.call_place] at hq
    exact hcalls q hlt hq
  -- what is known of a process in another place than the new one is what was known before
  have hcases : ∀ q pc, (s.goto p (.enter b write)).place q = pc →
      q = p ∧ pc = .alloc b write ∨ q ≠ p ∧ s.place q = pc := by
    intro q pc hq
    by_cases hqp : q = p
    · exact .inl ⟨hqp, by rw [← hq, hqp, hself]⟩
    · exact .inr ⟨hqp, by rw [← hq, hold q hqp]⟩
  refine ⟨h.fine, h.owned.congr (held_goto hnone.1.symm), ⟨?_, ?_, ?_⟩, h.serials.goto nofun,
    ⟨?_, ?_, ?_, h.requests.fresh⟩, ?_⟩
  · intro q r b' hq hr
    obtain ⟨rfl, heq⟩ | ⟨hqp, hq'⟩ := hcases q _ rfl
    · obtain ⟨rfl, -⟩ | ⟨hrp, hr'⟩ := hcases r _ rfl
      · rfl
      · rw [heq] at hq
        cases hq
        exact absurd (hr' ▸ hr) (hcall r)
    · obtain ⟨rfl, heq⟩ | ⟨hrp, hr'⟩ := hcases r _ rfl
      · rw [heq] at hr
        cases hr
        exact absurd (hq' ▸ hq) (hcall q)
      · exact h.called.calls q r b' (hq' ▸ hq) (hr' ▸ hr)
  · intro q b' hq
    obtain ⟨rfl, -⟩ | ⟨-, hq'⟩ := hcases q _ rfl
    · exact hp
    · exact h.called.slots q b' (hq' ▸ hq)
  · refine (forall_update_iff s.proc fun q pc => pc.holdsLock = true ↔
      s.lock = some (.proc q)).mpr ⟨?_, fun q _ => h.called.lock q⟩
    rw [← h.called.lock p, hlock]
    exact ⟨nofun, nofun⟩
  · intro q b' idx n hq
    obtain ⟨-, heq⟩ | ⟨-, hq⟩ := hcases q _ hq
    · cases heq
    · have hpub := h.requests.publish q b' idx n hq
      exact ⟨hpub.chain.congr (fun _ _ => rfl) rfl rfl, hpub.disk, hpub.notMem, hpub.slot, hpub.fresh⟩
  · intro q b' idx n hq
    obtain ⟨-, heq⟩ | ⟨-, hq⟩ := hcases q _ hq
    · cases heq
    · have hwait := h.requests.wait q b' idx n hq
      exact hwait.congr (hwait.chain.congr (fun _ _ => rfl) rfl rfl) Iff.rfl rfl id
  · intro q n hq
    obtain ⟨-, heq⟩ | ⟨-, hq⟩ := hcases q _ hq
    · cases heq
    · exact h.requests.returned q n hq
  · refine h.rings.congr rfl rfl rfl rfl rfl rfl rfl rfl rfl rfl fun q b' idx n hq _ => ?_
    rw [hold q fun heq => hnone.2 b' idx n (heq ▸ hq)]
    exact hq

theorem Inv.kkill (h : Inv s) (p : Nat) : Inv (s.kkill p) := by
  rw [Virtio.kkill]
  split
  case h_1 b write hpc =>
    have hlock := h.called.lock p
    rw [hpc] at hlock
    exact h.goto (by rw [place, hpc]; rfl) hlock fun _ _ => Iff.rfl
  case h_2 b idx n hpc =>
    have hlock := h.called.lock p
    rw [hpc] at hlock
    exact h.goto (by rw [place, hpc]; rfl) hlock fun _ _ => Iff.rfl
  case h_3 => exact h

theorem Inv.next {e : VirtioEvent} (h : Inv s) (hnext : s.next e = some s') : Inv s' := by
  unfold Virtio.next at hnext
  rw [if_neg (by rw [h.fine]; simp)] at hnext
  cases e with
  | virtioDiskRw p b write =>
    obtain ⟨hp, hnext⟩ := Option.ite_none_right_eq_some.mp hnext
    exact h.begin hp hnext
  | step p =>
    obtain ⟨-, hnext⟩ := Option.ite_none_right_eq_some.mp hnext
    exact h.step hnext
  | kkill p =>
    obtain ⟨-, hnext⟩ := Option.ite_none_right_eq_some.mp hnext
    exact Option.some.inj hnext ▸ h.kkill p
  | intr =>
    obtain ⟨hfree, rfl⟩ := Machine.of_guard hnext
    refine h.move (fun _ => rfl) fun q => ?_
    rw [h.called.lock q, hfree]
    exact ⟨nofun, nofun⟩
  | intrStep =>
    obtain ⟨hlock, hnext⟩ := Option.ite_none_right_eq_some.mp hnext
    exact Option.some.inj hnext ▸ h.intrStep hlock
  | take => exact h.take hnext
  | complete id => exact h.complete hnext

theorem Initial.inv (h : Initial s) : Inv s := by
  have hplace : ∀ p, s.place p = .idle := by
    intro p
    rw [place, h.proc p]
    rfl
  have havail : s.avail = ⟨s.avail.data, 0, 0⟩ :=
    congrArg₂ (RingBuffer.mk s.avail.data) h.avail.1 h.avail.2
  have hused : s.used = ⟨s.used.data, 0, 0⟩ :=
    congrArg₂ (RingBuffer.mk s.used.data) h.used.1 h.used.2
  have hempty : s.avail.contents NUM U16 = [] ∧ s.used.contents NUM U16 = [] := by
    rw [havail, hused]
    exact ⟨RingBuffer.contents_empty _, RingBuffer.contents_empty _⟩
  have hqueue : s.queue = [] := by rw [queue, hempty.1, hempty.2, h.pending]; rfl
  refine ⟨h.panicked, ⟨?_, ?_, ?_⟩, ⟨?_, ?_, ?_⟩, ⟨?_, ?_⟩, ⟨?_, ?_, ?_, ?_⟩,
    ⟨havail ▸ RingBuffer.ok_empty _ (by decide), hused ▸ RingBuffer.ok_empty _ (by decide),
      hqueue ▸ nodup_nil, hqueue ▸ nofun, hempty.2 ▸ nofun, ?_, ?_⟩⟩
  · simp [hplace, VirtioPc.held]
  · simp [hplace, VirtioPc.held]
  · simp [hplace, VirtioPc.held]
  · simp [hplace, VirtioPc.call]
  · simp [hplace, VirtioPc.call]
  · intro p
    rw [h.proc p, h.lock]
    exact ⟨nofun, nofun⟩
  · simp [hplace, VirtioPc.serial]
  · simp [hplace, VirtioPc.serial]
  · simp [hplace]
  · simp [hplace]
  · simp [hplace]
  · intro n hn
    cases (h.completed n).symm.trans hn
  · rw [h.submitted, h.accepted, hempty.1]
    rfl
  · rw [h.completions, h.processed, hempty.2]
    rfl

theorem Reachable.inv (h : Reachable s) : Inv s :=
  Machine.Reach.invariant (fun _ => Initial.inv) (fun _ _ _ hinv _ hnext => hinv.next hnext) h

/-- The chain of descriptors that starts at `i`. -/
def chain (s : Virtio) (i : Nat) : List Nat :=
  [i, (s.desc i).next, (s.desc (s.desc i).next).next]

theorem Inv.chain_eq (h : Inv s) (hp : (s.proc p).inFlight = some idx) :
    s.chain idx.head = [idx.head, idx.data, idx.status] ∧
      (s.proc p).held = [idx.head, idx.data, idx.status] := by
  have hlinks : ∀ b n, ChainOk s b idx n → s.chain idx.head = [idx.head, idx.data, idx.status] := by
    intro b n hchain
    rw [chain, hchain.head.2, hchain.data.2]
  cases hpc : s.proc p
  all_goals rw [hpc] at hp
  all_goals cases hp
  case publish b n =>
    exact ⟨hlinks b n (h.requests.publish p b idx n (by rw [place, hpc]; rfl)).chain, rfl⟩
  all_goals
    rename_i b n
    exact ⟨hlinks b n (h.requests.wait p b idx n (by rw [place, hpc]; rfl)).chain, rfl⟩

/-- In every interleaving: nothing panics; a request is not completed before it is submitted,
and a call returns only after its request was; the chains in flight are three descriptors
each, distinct and apart from each other and from the free ones; what is in `avail->ring`
between the two indices is what was submitted and not taken, and what is in `used->ring` is
what was completed and not processed. -/
theorem virtio_requests_apart (h : Reachable s) :
    s.panicked = none ∧
      (∀ p b idx n, s.proc p = .publish b idx n → s.completed n = false) ∧
      (∀ p n, s.proc p = .returned n → s.completed n = true) ∧
      (∀ p idx, (s.proc p).inFlight = some idx → s.chain idx.head = (s.proc p).held ∧
        (s.proc p).held = [idx.head, idx.data, idx.status]) ∧
      (∀ p, (s.proc p).held.Nodup ∧ ∀ i ∈ (s.proc p).held, i < NUM ∧ s.free i = false) ∧
      (∀ p q, p ≠ q → (s.proc p).held.Disjoint (s.proc q).held) ∧
      s.submitted = s.accepted ++ s.avail.contents NUM U16 ∧
      s.completions = s.processed ++ s.used.contents NUM U16 := by
  have hinv : Inv s := Reachable.inv h
  have hheld : ∀ p, (s.place p).held = (s.proc p).held := fun p => VirtioPc.held_place _
  refine ⟨hinv.fine, ?_, ?_, ?_, ?_, ?_, hinv.rings.submitted, hinv.rings.completions⟩
  · intro p b idx n hp
    exact (hinv.requests.publish p b idx n (by rw [place, hp]; rfl)).fresh
  · intro p n hp
    exact hinv.requests.returned p n (by rw [place, hp]; rfl)
  · intro p idx hp
    obtain ⟨hchain, heq⟩ := hinv.chain_eq hp
    exact ⟨hchain.trans heq.symm, heq⟩
  · intro p
    rw [← hheld]
    exact ⟨hinv.owned.nodup p, hinv.owned.held p⟩
  · intro p q hne i hp hq
    rw [← hheld] at hp hq
    exact hne (hinv.owned.apart p q i hp hq)

/-- The disk after `virtio_disk_init`. -/
def virtioDiskInit : Virtio where
  free := fun _ => true
  desc := fun _ => ⟨.null, 0, 0, 0⟩
  ops := fun _ => ⟨0, 0, 0⟩
  infoB := fun _ => none
  infoStatus := fun _ => 0
  avail := ⟨fun _ => 0, 0, 0⟩
  pending := []
  used := ⟨fun _ => 0, 0, 0⟩
  bufDisk := fun _ => false
  blockno := fun b => b
  lock := none
  proc := fun _ => .idle
  panicked := none
  serial := 0
  serialOf := fun _ => 0
  completed := fun _ => false
  submitted := []
  accepted := []
  completions := []
  processed := []

theorem virtioDiskInit_initial : Initial virtioDiskInit :=
  ⟨fun _ _ => rfl, ⟨rfl, rfl⟩, rfl, ⟨rfl, rfl⟩, rfl, fun _ => rfl, rfl, fun _ => rfl, rfl, rfl, rfl,
    rfl⟩

/-- Two processes submit requests, the device completes the second first, and the second call
returns. -/
def secondReturns : List VirtioEvent :=
  .virtioDiskRw 0 5 false :: List.replicate 5 (.step 0) ++
    .virtioDiskRw 1 6 true :: List.replicate 5 (.step 1) ++
    [.take, .take, .complete 3, .intr, .intrStep, .intrStep] ++ List.replicate 3 (.step 1)

theorem virtio_requests_apart_second :
    ∃ s, Reachable s ∧ s.proc 1 = .returned 1 ∧ s.completed 1 = true ∧ s.completed 0 = false ∧
      (s.proc 0).held = [0, 1, 2] := by
  have hrun : (Machine.run Virtio.next virtioDiskInit secondReturns).map
      (fun s => (s.proc 1, s.completed 0, (s.proc 0).held)) =
      some (.returned 1, false, [0, 1, 2]) := by
    decide +kernel
  obtain ⟨s, hs, hview⟩ := Option.map_eq_some_iff.mp hrun
  have hreach : Reachable s :=
    (Machine.Reach.start virtioDiskInit_initial).of_run (fun _ _ _ => trivial) hs
  simp only [Prod.mk.injEq] at hview
  obtain ⟨hreturned, hfirst, hheld⟩ := hview
  exact ⟨s, hreach, hreturned, (virtio_requests_apart hreach).2.2.1 1 1 hreturned, hfirst, hheld⟩

end Virtio

end EAFITos
