/-
The cache as a store of blocks: a valid buffer of a home block has its latest contents,
the disk lags behind only for blocks that are pinned or being changed, and buffers of
log blocks agree with the disk unless they are being changed.
-/
import EAFITos.Bio

namespace EAFITos

open Function List

namespace Bcache

/-- What a cache, a disk and the latest contents of the home blocks have to do with each
other when the blocks of `pinned` are pinned. -/
structure Coherent (home : Nat → Prop) (c : Bcache) (disk store : Nat → Block)
    (pinned : List Nat) : Prop where
  ok : c.Ok
  rootdev : ∀ i, (c.buf i).dev ≠ 0 → (c.buf i).dev = ROOTDEV
  pins : ∀ i, i < NBUF →
    c.pins i = if (c.buf i).dev = ROOTDEV ∧ (c.buf i).blockno ∈ pinned then 1 else 0
  held : ∀ b ∈ pinned, ∃ i, i < NBUF ∧ (c.buf i).names ROOTDEV b ∧ (c.buf i).valid
  cached : ∀ i, i < NBUF → (c.buf i).dev = ROOTDEV → (c.buf i).valid → home (c.buf i).blockno →
    (c.buf i).data = store (c.buf i).blockno
  behind : ∀ b, home b → disk b ≠ store b →
    b ∈ pinned ∨ ∃ p i, (c.buf i).names ROOTDEV b ∧ c.hold p i = .dirty
  area : ∀ i, i < NBUF → (c.buf i).dev = ROOTDEV → (c.buf i).valid → ¬ home (c.buf i).blockno →
    (∀ p, c.hold p i ≠ .dirty) → (c.buf i).data = disk (c.buf i).blockno

variable {home : Nat → Prop} {c c' : Bcache} {disk store disk' store' : Nat → Block}
  {pinned : List Nat} {p q i blockno : Nat} {b : Buf} {stage : Stage} {data : Block}

section

variable (h : Coherent home c disk store pinned)
include h

theorem Coherent.inUse (hhold : c.hold p i ≠ .free) :
    p < NPROC ∧ i < NBUF ∧ (c.buf i).dev = ROOTDEV := by
  obtain ⟨hp, hi, hdev⟩ := h.ok.inUse p i hhold
  exact ⟨hp, hi, h.rootdev i hdev⟩

section

variable (hok : ((c.setBuf i b).setHold p i stage).Ok) (hi : i < NBUF)
  (hdev : (c.buf i).dev = ROOTDEV)
include hok hi hdev

/-- A step of a process on a buffer that keeps its block: what is to be shown of that
buffer and its block. -/
theorem Coherent.step (hnames : b.names (c.buf i).dev (c.buf i).blockno)
    (hdisk : ∀ x, x ≠ b.blockno → disk' x = disk x)
    (hstore : ∀ x, x ≠ b.blockno → store' x = store x) (hvalid : (c.buf i).valid → b.valid)
    (hcached : b.valid → home b.blockno → b.data = store' b.blockno)
    (hbehind : home b.blockno → disk' b.blockno ≠ store' b.blockno →
      b.blockno ∈ pinned ∨ stage = .dirty ∨ ∃ q, q ≠ p ∧ c.hold q i = .dirty)
    (harea : b.valid → ¬ home b.blockno → stage ≠ .dirty → (∀ q, q ≠ p → c.hold q i ≠ .dirty) →
      b.data = disk' b.blockno) :
    Coherent home ((c.setBuf i b).setHold p i stage) disk' store' pinned := by
  obtain ⟨hbdev, hblock⟩ := hnames
  have hother : ∀ j, j < NBUF → j ≠ i → (c.buf j).dev = ROOTDEV → (c.buf j).blockno ≠ b.blockno := by
    intro j hj hne hjdev heq
    rw [hblock] at heq
    exact hne (h.ok.unique i j hi hj (by rw [hdev]; decide) ⟨hjdev.trans hdev.symm, heq⟩).symm
  refine ⟨hok, ?_, ?_, ?_, ?_, ?_, ?_⟩
  · intro j hj
    rw [setHold_buf] at hj ⊢
    by_cases hji : j = i
    · rw [hji, setBuf_self, hbdev, hdev]
    · rw [setBuf_of_ne hji] at hj ⊢
      exact h.rootdev j hj
  · intro j hj
    rw [setHold_buf, setHold_pins, setBuf_pins]
    by_cases hji : j = i
    · rw [hji, setBuf_self, hbdev, hblock]
      exact h.pins i hi
    · rw [setBuf_of_ne hji]
      exact h.pins j hj
  · intro x hx
    obtain ⟨j, hj, hjnames, hjvalid⟩ := h.held x hx
    refine ⟨j, hj, ?_⟩
    rw [setHold_buf]
    by_cases hji : j = i
    · rw [hji] at hjnames hjvalid
      rw [hji, setBuf_self]
      exact ⟨⟨hbdev.trans hjnames.1, hblock.trans hjnames.2⟩, hvalid hjvalid⟩
    · rw [setBuf_of_ne hji]
      exact ⟨hjnames, hjvalid⟩
  · intro j hj
    rw [setHold_buf]
    by_cases hji : j = i
    · rw [hji, setBuf_self]
      exact fun _ => hcached
    · rw [setBuf_of_ne hji]
      intro hjdev hjvalid hhome
      rw [hstore _ (hother j hj hji hjdev)]
      exact h.cached j hj hjdev hjvalid hhome
  · intro x hhome hne
    by_cases hx : x = b.blockno
    · subst hx
      rcases hbehind hhome hne with hpin | hstage | ⟨q, hqp, hq⟩
      · exact .inl hpin
      · exact .inr ⟨p, i, by rw [setHold_buf, setBuf_self]; exact ⟨hbdev.trans hdev, rfl⟩,
          by rw [setHold_self, hstage]⟩
      · exact .inr ⟨q, i, by rw [setHold_buf, setBuf_self]; exact ⟨hbdev.trans hdev, rfl⟩,
          by rw [setHold_of_ne_proc hqp, setBuf_hold, hq]⟩
    · rw [hdisk x hx, hstore x hx] at hne
      rcases h.behind x hhome hne with hpin | ⟨q, j, hjnames, hq⟩
      · exact .inl hpin
      · have hji : j ≠ i := by
          rintro rfl
          exact hx (hjnames.2.symm.trans hblock.symm)
        exact .inr ⟨q, j, by rw [setHold_buf, setBuf_of_ne hji]; exact hjnames,
          by rw [setHold_of_ne hji, setBuf_hold, hq]⟩
  · intro j hj
    rw [setHold_buf]
    by_cases hji : j = i
    · rw [hji, setBuf_self]
      intro _ hbvalid harea' hclean
      refine harea hbvalid harea' ?_ fun q hqp => ?_
      · have := hclean p
        rwa [setHold_self] at this
      · have := hclean q
        rwa [setHold_of_ne_proc hqp, setBuf_hold] at this
    · rw [setBuf_of_ne hji]
      intro hjdev hjvalid harea' hclean
      rw [hdisk _ (hother j hj hji hjdev)]
      refine h.area j hj hjdev hjvalid harea' fun q => ?_
      have := hclean q
      rwa [setHold_of_ne hji, setBuf_hold] at this

/-- A step that leaves block, contents and the disk alone. -/
theorem Coherent.keep (hnames : b.names (c.buf i).dev (c.buf i).blockno)
    (hvalid : b.valid = (c.buf i).valid) (hdata : b.data = (c.buf i).data)
    (hclean : c.hold p i ≠ .dirty) :
    Coherent home ((c.setBuf i b).setHold p i stage) disk store pinned := by
  refine h.step hok hi hdev hnames (fun _ _ => rfl) (fun _ _ => rfl) (fun hv => hvalid.trans hv) ?_ ?_ ?_
  · rw [hnames.2, hdata, hvalid]
    exact h.cached i hi hdev
  · rw [hnames.2]
    intro hhome hne
    rcases h.behind _ hhome hne with hpin | ⟨q, j, hj, hq⟩
    · exact .inl hpin
    · have hjlt := (h.ok.inUse q j (by rw [hq]; decide)).2.1
      obtain rfl := h.ok.names_unique hi hjlt (by decide) ⟨hdev, rfl⟩ hj
      refine .inr (.inr ⟨q, ?_, hq⟩)
      rintro rfl
      exact hclean hq
  · rw [hnames.2, hdata, hvalid]
    intro hv harea _ hothers
    refine h.area i hi hdev hv harea fun q => ?_
    by_cases hq : q = p
    · exact hq ▸ hclean
    · exact hothers q hq

end

theorem Coherent.of_lru {lru : List Nat} (hlru : lru.Perm (List.range NBUF)) :
    Coherent home { c with lru := lru } disk store pinned :=
  ⟨h.ok.of_lru hlru, h.rootdev, h.pins, h.held, h.cached, h.behind, h.area⟩

theorem Coherent.acquiresleep (hc : c.acquiresleep p i = some c') :
    Coherent home c' disk store pinned := by
  have hok := h.ok.acquiresleep hc
  rw [Bcache.acquiresleep] at hc
  split at hc
  case isTrue hwait =>
    cases hc
    obtain ⟨-, hi, hdev⟩ := h.inUse (by rw [hwait.1]; decide)
    exact h.keep hok hi hdev ⟨rfl, rfl⟩ rfl rfl (by rw [hwait.1]; decide)
  case isFalse => cases hc

theorem Coherent.releasesleep (hc : c.releasesleep p i = some c') :
    Coherent home c' disk store pinned := by
  have hok := h.ok.releasesleep hc
  rw [Bcache.releasesleep] at hc
  split at hc
  case isTrue hready =>
    cases hc
    obtain ⟨-, hi, hdev⟩ := h.inUse (by rw [hready]; decide)
    exact h.keep hok hi hdev ⟨rfl, rfl⟩ rfl rfl (by rw [hready]; decide)
  case isFalse => cases hc

theorem Coherent.brelse (hc : c.brelse p i = some c') : Coherent home c' disk store pinned := by
  have hok := h.ok.brelse hc
  rw [Bcache.brelse] at hc
  split at hc
  case isTrue hreleasing =>
    cases hc
    obtain ⟨-, hi, hdev⟩ := h.inUse (by rw [hreleasing]; decide)
    have hdrop : Coherent home
        ((c.setBuf i { c.buf i with refcnt := (c.buf i).refcnt - 1 }).setHold p i .free)
        disk store pinned := by
      refine h.keep ?_ hi hdev ⟨rfl, rfl⟩ rfl rfl (by rw [hreleasing]; decide)
      split at hok
      · exact hok.of_lru h.ok.lru
      · exact hok
    split
    · rename_i hzero
      rw [if_pos hzero] at hok
      exact hdrop.of_lru hok.lru
    · exact hdrop
  case isFalse => cases hc

theorem Coherent.disk_eq (hi : i < NBUF) (hdev : (c.buf i).dev = ROOTDEV)
    (hvalid : (c.buf i).valid = false) (hhome : home (c.buf i).blockno) :
    disk (c.buf i).blockno = store (c.buf i).blockno := by
  by_contra hne
  have hinvalid : ¬ (c.buf i).valid := by rw [hvalid]; decide
  rcases h.behind _ hhome hne with hpin | ⟨q, j, hj, hq⟩
  · obtain ⟨j, hjlt, hj, hjvalid⟩ := h.held _ hpin
    obtain rfl := h.ok.names_unique hi hjlt (by decide) ⟨hdev, rfl⟩ hj
    exact hinvalid hjvalid
  · have hjlt := (h.ok.inUse q j (by rw [hq]; decide)).2.1
    obtain rfl := h.ok.names_unique hi hjlt (by decide) ⟨hdev, rfl⟩ hj
    exact hinvalid (h.ok.valid q i (by rw [hq]; rfl))

theorem Coherent.bread (hc : c.bread disk p i = some c') : Coherent home c' disk store pinned := by
  have hok := h.ok.bread hc
  rw [Bcache.bread] at hc
  split at hc
  case isTrue hlocked =>
    cases hc
    obtain ⟨-, hi, hdev⟩ := h.inUse (by rw [hlocked]; decide)
    cases hvalid : (c.buf i).valid with
    | true =>
      simp only [hvalid, if_true] at hok ⊢
      exact h.keep hok hi hdev ⟨rfl, rfl⟩ rfl rfl (by rw [hlocked]; decide)
    | false =>
      simp only [hvalid, Bool.false_eq_true, if_false] at hok ⊢
      refine h.step hok hi hdev ⟨rfl, rfl⟩ (fun _ _ => rfl) (fun _ _ => rfl) (fun _ => rfl)
        (fun _ hhome => h.disk_eq hi hdev hvalid hhome) ?_ (fun _ _ _ _ => rfl)
      intro hhome hne
      exact absurd (h.disk_eq hi hdev hvalid hhome) hne
  case isFalse => cases hc

/-- A change of a buffer's contents, which become the latest ones of its block. -/
theorem Coherent.edit (hfilled : (c.hold p i).filled) :
    Coherent home (c.edit p i data) disk (Function.update store (c.buf i).blockno data) pinned := by
  obtain ⟨-, hi, hdev⟩ := h.inUse (Stage.ne_free_of_holding (Stage.holding_of_filled hfilled))
  refine h.step (h.ok.edit hfilled) hi hdev ⟨rfl, rfl⟩ (fun _ _ => rfl)
    (fun x hx => update_of_ne hx _ _) id (fun _ _ => by simp)
    (fun _ _ => .inr (.inl rfl)) fun _ _ hstage => absurd rfl hstage

theorem Coherent.congr_store (hstore : ∀ x, home x → store' x = store x) :
    Coherent home c disk store' pinned := by
  refine ⟨h.ok, h.rootdev, h.pins, h.held, ?_, ?_, h.area⟩
  · intro j hj hdev hvalid hhome
    rw [hstore _ hhome]
    exact h.cached j hj hdev hvalid hhome
  · intro x hhome hne
    rw [hstore x hhome] at hne
    exact h.behind x hhome hne

/-- `bwrite` of a changed buffer. -/
theorem Coherent.write (hdirty : c.hold p i = .dirty) :
    Coherent home (c.setHold p i .ready)
      (Function.update disk (c.buf i).blockno (c.buf i).data) store pinned := by
  obtain ⟨-, hi, hdev⟩ := h.inUse (by rw [hdirty]; decide)
  have hok : ((c.setBuf i (c.buf i)).setHold p i .ready).Ok := by
    rw [setBuf_eq_self]
    exact h.ok.setReady (by rw [hdirty]; rfl)
  have hstep : Coherent home ((c.setBuf i (c.buf i)).setHold p i .ready)
      (Function.update disk (c.buf i).blockno (c.buf i).data) store pinned := by
    refine h.step hok hi hdev ⟨rfl, rfl⟩ (fun x hx => update_of_ne hx _ _)
      (fun _ _ => rfl) id (h.cached i hi hdev) ?_ fun _ _ _ _ => by simp
    intro hhome hne
    have hvalid := h.ok.valid p i (by rw [hdirty]; rfl)
    rw [update_self, h.cached i hi hdev hvalid hhome] at hne
    exact absurd rfl hne
  rwa [setBuf_eq_self] at hstep

/-- A logged buffer need not be treated as changed any more. -/
theorem Coherent.logged (hfilled : (c.hold p i).filled) (hhome : home (c.buf i).blockno)
    (hpin : (c.buf i).blockno ∈ pinned) :
    Coherent home (c.setHold p i .ready) disk store pinned := by
  obtain ⟨-, hi, hdev⟩ := h.inUse (Stage.ne_free_of_holding (Stage.holding_of_filled hfilled))
  have hok : ((c.setBuf i (c.buf i)).setHold p i .ready).Ok := by
    rw [setBuf_eq_self]
    exact h.ok.setReady hfilled
  have hstep : Coherent home ((c.setBuf i (c.buf i)).setHold p i .ready) disk store pinned :=
    h.step hok hi hdev ⟨rfl, rfl⟩ (fun _ _ => rfl) (fun _ _ => rfl) id (h.cached i hi hdev)
      (fun _ _ => .inl hpin) fun _ harea => absurd hhome harea
  rwa [setBuf_eq_self] at hstep

/-- A change of pins and reference count of one buffer keeps all the rest. -/
theorem Coherent.repin {refcnt n : Nat} {pinned' : List Nat}
    (hok : Ok { c.setBuf i { c.buf i with refcnt } with pins := Function.update c.pins i n })
    (hn : n = if (c.buf i).dev = ROOTDEV ∧ (c.buf i).blockno ∈ pinned' then 1 else 0)
    (hother : ∀ x, x ≠ (c.buf i).blockno → (x ∈ pinned' ↔ x ∈ pinned)) (hi : i < NBUF)
    (hdev : (c.buf i).dev = ROOTDEV) (hvalid : (c.buf i).valid)
    (hbehind : (c.buf i).blockno ∉ pinned' → home (c.buf i).blockno →
      disk (c.buf i).blockno = store (c.buf i).blockno) :
    Coherent home { c.setBuf i { c.buf i with refcnt } with pins := Function.update c.pins i n }
      disk store pinned' := by
  have hsame : ∀ {α : Type} (f : Buf → α), f { c.buf i with refcnt } = f (c.buf i) → ∀ j,
      f ((c.setBuf i { c.buf i with refcnt }).buf j) = f (c.buf j) := by
    intro α f hf j
    by_cases hji : j = i
    · rw [hji, setBuf_self, hf]
    · rw [setBuf_of_ne hji]
  have hdevs := hsame Buf.dev rfl
  have hblocks := hsame Buf.blockno rfl
  have hvalids := hsame Buf.valid rfl
  have hdatas := hsame Buf.data rfl
  refine ⟨hok, ?_, ?_, ?_, ?_, ?_, ?_⟩
  all_goals simp only [Buf.names, hdevs, hblocks, hvalids, hdatas, setBuf_hold]
  · exact h.rootdev
  · intro j hj
    by_cases hji : j = i
    · rw [hji, update_self, hn]
    · rw [update_of_ne hji, h.pins j hj]
      refine if_congr (and_congr_right fun hjdev => (hother _ fun heq => hji ?_).symm) rfl rfl
      exact (h.ok.unique i j hi hj (by rw [hdev]; decide) ⟨hjdev.trans hdev.symm, heq⟩).symm
  · intro x hx
    by_cases hxi : x = (c.buf i).blockno
    · exact ⟨i, hi, ⟨hdev, hxi.symm⟩, hvalid⟩
    · exact h.held x ((hother x hxi).mp hx)
  · exact h.cached
  · intro x hhome hne
    by_cases hxi : x = (c.buf i).blockno
    · by_cases hpin : x ∈ pinned'
      · exact .inl hpin
      · subst hxi
        exact absurd (hbehind hpin hhome) hne
    · rcases h.behind x hhome hne with hpin | hdirty
      · exact .inl ((hother x hxi).mpr hpin)
      · exact .inr hdirty
  · exact h.area

theorem Coherent.bpin (hfilled : (c.hold p i).filled) (hnew : (c.buf i).blockno ∉ pinned) :
    Coherent home (c.bpin i) disk store (pinned ++ [(c.buf i).blockno]) := by
  have hhold := Stage.ne_free_of_holding (Stage.holding_of_filled hfilled)
  obtain ⟨-, hi, hdev⟩ := h.inUse hhold
  refine h.repin (h.ok.bpin hhold) ?_ (fun x hx => by simp [hx]) hi hdev (h.ok.valid p i hfilled)
    fun hnot => absurd (by simp) hnot
  rw [h.pins i hi, if_neg fun hpin => hnew hpin.2, if_pos ⟨hdev, by simp⟩]

theorem Coherent.bunpin (hnodup : pinned.Nodup) (hhold : c.hold p i ≠ .free)
    (hpin : (c.buf i).blockno ∈ pinned)
    (hdisk : home (c.buf i).blockno → disk (c.buf i).blockno = store (c.buf i).blockno) :
    Coherent home (c.bunpin i) disk store (pinned.erase (c.buf i).blockno) := by
  obtain ⟨-, hi, hdev⟩ := h.inUse hhold
  have hpins : c.pins i = 1 := by rw [h.pins i hi, if_pos ⟨hdev, hpin⟩]
  have hvalid : (c.buf i).valid := by
    obtain ⟨j, hj, hjnames, hjvalid⟩ := h.held _ hpin
    rwa [← h.ok.names_unique hj hi (by decide) hjnames ⟨hdev, rfl⟩]
  refine h.repin (h.ok.bunpin hhold (by omega)) ?_ (fun x hx => mem_erase_of_ne hx) hi hdev
    hvalid fun _ => hdisk
  rw [hpins, if_neg fun hmem => hnodup.not_mem_erase hmem.2]

theorem Coherent.bget (hp : p < NPROC) (hnot : ¬ c.Uses p ROOTDEV blockno)
    (hgot : Got c p ROOTDEV blockno i c') : Coherent home c' disk store pinned := by
  have hok := h.ok.bget hp (by decide) hnot hgot
  obtain ⟨hi, hfree⟩ := h.ok.bget_free hnot hgot
  cases hgot with
  | hit hmem hnames hc =>
    subst hc
    exact h.keep hok hi hnames.1 ⟨rfl, rfl⟩ rfl rfl (by rw [hfree]; decide)
  | recycled hmem hmiss hrefcnt hc =>
    subst hc
    obtain ⟨hnone, hpins⟩ := h.ok.hold_of_refcnt hi hrefcnt
    -- nothing was known of the old block that does not hold without the buffer
    have hunpinned : blockno ∉ pinned := by
      intro hpin
      obtain ⟨j, hj, hjnames, -⟩ := h.held blockno hpin
      exact hmiss j (h.ok.mem_lru.mpr hj) hjnames
    refine ⟨hok, ?_, ?_, ?_, ?_, ?_, ?_⟩
    · intro j hj
      rw [setHold_buf] at hj ⊢
      by_cases hji : j = i
      · rw [hji, setBuf_self]
      · rw [setBuf_of_ne hji] at hj ⊢
        exact h.rootdev j hj
    · intro j hj
      rw [setHold_buf, setHold_pins, setBuf_pins]
      by_cases hji : j = i
      · rw [hji, setBuf_self, hpins, if_neg fun hpin => hunpinned hpin.2]
      · rw [setBuf_of_ne hji]
        exact h.pins j hj
    · intro x hx
      obtain ⟨j, hj, hjnames, hjvalid⟩ := h.held x hx
      have hji : j ≠ i := by
        rintro rfl
        rw [h.pins j hj, if_pos ⟨hjnames.1, hjnames.2.symm ▸ hx⟩] at hpins
        cases hpins
      exact ⟨j, hj, by rw [setHold_buf, setBuf_of_ne hji]; exact ⟨hjnames, hjvalid⟩⟩
    · intro j hj
      rw [setHold_buf]
      by_cases hji : j = i
      · rw [hji, setBuf_self]
        exact nofun
      · rw [setBuf_of_ne hji]
        exact h.cached j hj
    · intro x hhome hne
      rcases h.behind x hhome hne with hpin | ⟨q, j, hjnames, hq⟩
      · exact .inl hpin
      · have hji : j ≠ i := by
          rintro rfl
          rw [hnone q] at hq
          cases hq
        exact .inr ⟨q, j, by rw [setHold_buf, setBuf_of_ne hji]; exact hjnames,
          by rw [setHold_of_ne hji, setBuf_hold, hq]⟩
    · intro j hj
      rw [setHold_buf]
      by_cases hji : j = i
      · rw [hji, setBuf_self]
        exact nofun
      · rw [setBuf_of_ne hji]
        intro hdev hvalid harea hclean
        refine h.area j hj hdev hvalid harea fun q => ?_
        have := hclean q
        rwa [setHold_of_ne hji, setBuf_hold] at this

end

end Bcache

end EAFITos
