/-
  What a vacuum of the map leaves: the bottom pages' slots as they were, and every upper slot it visits with the value
  of the root below it, the next search of each page it visits beginning at the first slot.

  The pages below one fill the blocks after it, as many as the level has below it, so a page vacuumed changes none of
  its siblings.
-/
import Secantus.FreeSpace.Searches

namespace Secantus.FreeSpace

/-- The blocks a page of a level takes with those below it. -/
def span : ℕ → ℕ
  | 0 => 1
  | level + 1 => 1 + slotsPerPage * span level

/-- The page below a slot comes after its parent and the pages below the slots before. -/
theorem physical_child {level n : ℕ} (h : Addr.InTree { level := level + 1, logpageno := n }) {slot : ℕ}
    (hslot : slot < slotsPerPage) :
    physical { level := level, logpageno := n * slotsPerPage + slot } =
      physical { level := level + 1, logpageno := n } + 1 + slot * span level := by
  obtain ⟨-, -, hslots⟩ := FsmPage.sizes
  have hchild := inTree_child h (Nat.succ_ne_zero level) hslot
  obtain ⟨hl, hn, hp⟩ | ⟨hl, hn, hp⟩ | ⟨hl, hn, hp⟩ := h.physical
  · obtain rfl : level = 1 := by simpa using hl
    obtain rfl : n = 0 := hn
    obtain ⟨hl', hn', hp'⟩ | ⟨hl', hn', hp'⟩ | ⟨hl', hn', hp'⟩ := hchild.physical
    · simp [child] at hl'
    · rw [hp]
      refine hp'.trans ?_
      simp only [child, span, hslots]
      omega
    · simp [child] at hl'
  · obtain rfl : level = 0 := by simpa using hl
    obtain ⟨hl', hn', hp'⟩ | ⟨hl', hn', hp'⟩ | ⟨hl', hn', hp'⟩ := hchild.physical
    · simp [child] at hl'
    · simp [child] at hl'
    · rw [hp]
      refine hp'.trans ?_
      simp only [child, span, hslots] at hn ⊢
      omega
  · exact absurd hl (Nat.succ_ne_zero level)

namespace Fsm

/-- The page at an address. -/
def pageOf (f : Fsm) (level n : ℕ) : FsmPage := f.pageAt (physical { level := level, logpageno := n })

/-- A page and those a vacuum of the blocks from `start` to `stop` visits below it begin their next search at the
first slot, and each slot it visits has the value of the root below. -/
def Fresh (start stop : ℕ) : ℕ → ℕ → Fsm → Prop
  | 0, n, f => (f.pageOf 0 n).nextSlot = 0
  | level + 1, n, f =>
    (f.pageOf (level + 1) n).nextSlot = 0 ∧
      ∀ slot, startSlot { level := level + 1, logpageno := n } start ≤ slot →
        slot < stopSlot { level := level + 1, logpageno := n } stop →
        (f.pageOf (level + 1) n).getAvail slot = (f.pageOf level (n * slotsPerPage + slot)).nodes 0 ∧
          Fresh start stop level (n * slotsPerPage + slot) f

theorem ancestor_lt (heapblk level : ℕ) : (ancestor heapblk level).2 < slotsPerPage := by
  have hpos : 0 < slotsPerPage := by decide
  cases level <;> exact Nat.mod_lt _ hpos

theorem stopSlot_le (addr : Addr) (stop : ℕ) : stopSlot addr stop ≤ slotsPerPage := by
  have := ancestor_lt (stop - 1) addr.level
  unfold stopSlot
  dsimp only
  split
  · omega
  · split <;> omega

theorem span_pos (level : ℕ) : 0 < span level := by
  cases level
  · exact Nat.one_pos
  · rw [span]
    omega

theorem child_within {level n : ℕ} (h : Addr.InTree { level := level + 1, logpageno := n }) {slot : ℕ}
    (hslot : slot < slotsPerPage) :
    physical { level := level + 1, logpageno := n } <
        physical { level := level, logpageno := n * slotsPerPage + slot } ∧
      physical { level := level, logpageno := n * slotsPerPage + slot } + span level ≤
        physical { level := level + 1, logpageno := n } + span (level + 1) := by
  rw [physical_child h hslot]
  have hle : slot * span level + span level ≤ slotsPerPage * span level := by
    rw [← Nat.succ_mul]
    exact Nat.mul_le_mul_right _ hslot
  rw [span]
  omega

/-- Only the pages at and below an address decide whether it is fresh. -/
theorem Fresh.congr {start stop level n : ℕ} {f g : Fsm} (h : Fresh start stop level n f)
    (hin : Addr.InTree { level := level, logpageno := n })
    (hsame : ∀ b, physical { level := level, logpageno := n } ≤ b →
      b < physical { level := level, logpageno := n } + span level → g.pageAt b = f.pageAt b) :
    Fresh start stop level n g := by
  induction level generalizing n with
  | zero =>
    show (g.pageOf 0 n).nextSlot = 0
    rw [pageOf, hsame _ (Nat.le_refl _) (Nat.lt_add_of_pos_right (span_pos 0))]
    exact h
  | succ level ih =>
    have hown : g.pageOf (level + 1) n = f.pageOf (level + 1) n :=
      hsame _ (Nat.le_refl _) (Nat.lt_add_of_pos_right (span_pos _))
    refine ⟨by rw [hown]; exact h.1, ?_⟩
    intro slot hstart hstop
    have hslot : slot < slotsPerPage := Nat.lt_of_lt_of_le hstop (stopSlot_le _ _)
    obtain ⟨hlow, hhigh⟩ := child_within hin hslot
    have hpos := span_pos level
    obtain ⟨hval, hfresh⟩ := h.2 slot hstart hstop
    have hbelow : g.pageOf level (n * slotsPerPage + slot) = f.pageOf level (n * slotsPerPage + slot) :=
      hsame _ (by omega) (by omega)
    refine ⟨by rw [hown, hbelow]; exact hval, ih hfresh (inTree_child hin (Nat.succ_ne_zero _) hslot) ?_⟩
    intro b hb hb'
    exact hsame b (by omega) (by omega)

/-- A page past the fork's end is fresh, for it reads as zeros, and so do the pages below it. -/
theorem Valid.fresh_past {start stop level n : ℕ} {f : Fsm} (hf : f.Valid)
    (hin : Addr.InTree { level := level, logpageno := n })
    (hpast : f.nblocks ≤ physical { level := level, logpageno := n }) : Fresh start stop level n f := by
  induction level generalizing n with
  | zero =>
    show (f.pageOf 0 n).nextSlot = 0
    rw [pageOf, hf.pageAt_past hpast]
    rfl
  | succ level ih =>
    have hown : f.pageOf (level + 1) n = .new := hf.pageAt_past hpast
    refine ⟨by rw [hown]; rfl, ?_⟩
    intro slot hstart hstop
    have hslot : slot < slotsPerPage := Nat.lt_of_lt_of_le hstop (stopSlot_le _ _)
    have hbelow : f.nblocks ≤ physical { level := level, logpageno := n * slotsPerPage + slot } :=
      hpast.trans (child_within hin hslot).1.le
    have hzero : f.pageOf level (n * slotsPerPage + slot) = .new := hf.pageAt_past hbelow
    refine ⟨by rw [hown, hzero]; rfl, ih (inTree_child hin (Nat.succ_ne_zero _) hslot) hbelow⟩

/-- What a vacuum of the page `n` of a level leaves. -/
structure Vacuumed (start stop level n : ℕ) (f g : Fsm) : Prop where
  valid : g.Valid
  nblocks : g.nblocks = f.nblocks
  frame : ∀ b, b < physical { level := level, logpageno := n } ∨
    physical { level := level, logpageno := n } + span level ≤ b → g.pageAt b = f.pageAt b
  bottoms : ∀ k < slotsPerPage ^ 2, (g.pageOf 0 k).nodes = (f.pageOf 0 k).nodes
  fresh : Fresh start stop level n g

/-- What the vacuum of the page's slots from `first` up to `next` has left, `acc` also telling whether the fork's end
was met. -/
structure SlotsVacuumed (start stop level n first next : ℕ) (f : Fsm) (acc : Bool × Fsm) : Prop where
  valid : acc.2.Valid
  nblocks : acc.2.nblocks = f.nblocks
  frame : ∀ b, b < physical { level := level + 1, logpageno := n } ∨
    physical { level := level + 1, logpageno := n } + span (level + 1) ≤ b → acc.2.pageAt b = f.pageAt b
  bottoms : ∀ k < slotsPerPage ^ 2, (acc.2.pageOf 0 k).nodes = (f.pageOf 0 k).nodes
  eof : acc.1 = true → next < slotsPerPage →
    f.nblocks ≤ physical { level := level, logpageno := n * slotsPerPage + next }
  done : ∀ slot, first ≤ slot → slot < next →
    (acc.2.pageOf (level + 1) n).getAvail slot = (acc.2.pageOf level (n * slotsPerPage + slot)).nodes 0 ∧
      Fresh start stop level (n * slotsPerPage + slot) acc.2

/-- The pages below a slot end before those below a later one begin. -/
theorem child_before {level n : ℕ} (h : Addr.InTree { level := level + 1, logpageno := n }) {slot later : ℕ}
    (hlt : slot < later) (hlater : later < slotsPerPage) :
    physical { level := level, logpageno := n * slotsPerPage + slot } + span level ≤
      physical { level := level, logpageno := n * slotsPerPage + later } := by
  rw [physical_child h (hlt.trans hlater), physical_child h hlater]
  have hle : slot * span level + span level ≤ later * span level := by
    rw [← Nat.succ_mul]
    exact Nat.mul_le_mul_right _ hlt
  omega

theorem Vacuumed.refl_of_past {start stop level n : ℕ} {f : Fsm} (hf : f.Valid)
    (hin : Addr.InTree { level := level, logpageno := n })
    (hpast : f.nblocks ≤ physical { level := level, logpageno := n }) : Vacuumed start stop level n f f :=
  ⟨hf, rfl, fun _ _ => rfl, fun _ _ => rfl, hf.fresh_past hin hpast⟩

/-- What a vacuum of one page answers: what it leaves, the value of the page's root, and whether the fork ends before
the page. -/
def Answered (start stop level n : ℕ) (f : Fsm) (r : ℕ × Bool × Fsm) : Prop :=
  Vacuumed start stop level n f r.2.2 ∧ r.1 = (r.2.2.pageOf level n).nodes 0 ∧
    (r.2.1 = true → f.nblocks ≤ physical { level := level, logpageno := n })

/-- A slot set, or found set already, on a page the fork reaches. -/
theorem wrote_slot {f : Fsm} (hf : f.Valid) {addr : Addr} (hreach : physical addr < f.nblocks) {slot : ℕ}
    (hslot : slot < slotsPerPage) (avail : ℕ) (eof : Bool) :
    ∃ q g, (match f.page addr false with
      | none => (eof, f)
      | some (p, f) => (eof, if p.getAvail slot ≠ avail then f.put addr (p.setAvail slot avail) else f)) = (eof, g) ∧
      f.Wrote addr q g ∧ g.nblocks = f.nblocks ∧
      ∀ t, q.getAvail t = if t = slot then avail else (f.pageAt (physical addr)).getAvail t := by
  split
  · rename_i hread
    exact absurd (page_eq_none.mp hread) (Nat.not_le.mpr hreach)
  · rename_i p g hread
    obtain ⟨rfl, hwrote, hend⟩ := page_eq_some hf hread
    obtain ⟨hset, havail, -⟩ := (hf.summed (physical addr)).setAvail hslot avail
    by_cases hsame : (f.pageAt (physical addr)).getAvail slot = avail
    · rw [if_neg (not_not.mpr hsame)]
      refine ⟨_, g, rfl, hwrote, hend rfl, ?_⟩
      intro t
      by_cases ht : t = slot
      · rw [if_pos ht, ht, hsame]
      · rw [if_neg ht]
    · rw [if_pos hsame]
      exact ⟨_, _, rfl, hwrote.put hset, hend rfl, havail⟩

theorem SlotsVacuumed.step {start stop level n first next : ℕ} {f : Fsm} {below : ℕ → Fsm → ℕ × Bool × Fsm}
    {acc : Bool × Fsm} (hin : Addr.InTree { level := level + 1, logpageno := n })
    (hreach : physical { level := level + 1, logpageno := n } < f.nblocks)
    (hbelow : ∀ m g, g.Valid → Addr.InTree { level := level, logpageno := m } →
      Answered start stop level m g (below m g))
    (h : SlotsVacuumed start stop level n first next f acc) (hnext : next < slotsPerPage) :
    SlotsVacuumed start stop level n first (next + 1) f
      (vacuumSlot below { level := level + 1, logpageno := n } acc next) := by
  have hchild := inTree_child hin (Nat.succ_ne_zero level) hnext
  obtain ⟨hlow, hhigh⟩ := child_within hin hnext
  -- the page below, vacuumed or past the fork's end
  obtain ⟨avail, eof, g, hmid, hvac, hroot, heof⟩ : ∃ avail eof g,
      (if acc.1 = true then (0, true, acc.2) else
        below (child { level := level + 1, logpageno := n } next).logpageno acc.2) = (avail, eof, g) ∧
      Vacuumed start stop level (n * slotsPerPage + next) acc.2 g ∧
      avail = (g.pageOf level (n * slotsPerPage + next)).nodes 0 ∧
      (eof = true → f.nblocks ≤ physical { level := level, logpageno := n * slotsPerPage + next }) := by
    by_cases hacc : acc.1 = true
    · have hpast := h.eof hacc hnext
      have hpast' : acc.2.nblocks ≤ physical { level := level, logpageno := n * slotsPerPage + next } := by
        rw [h.nblocks]
        exact hpast
      refine ⟨0, true, acc.2, if_pos hacc, .refl_of_past h.valid hchild hpast', ?_, fun _ => hpast⟩
      rw [pageOf, h.valid.pageAt_past hpast']
      rfl
    · obtain ⟨hvac, hroot, heof⟩ := hbelow (n * slotsPerPage + next) acc.2 h.valid hchild
      refine ⟨_, _, _, if_neg hacc, hvac, hroot, ?_⟩
      rw [← h.nblocks]
      exact heof
  -- the slot set
  have hreach' : physical { level := level + 1, logpageno := n } < g.nblocks := by
    rw [hvac.nblocks, h.nblocks]
    exact hreach
  obtain ⟨q, g', hset, hwrote, hend, havail⟩ := wrote_slot hvac.valid hreach' hnext avail eof
  have hres : vacuumSlot below { level := level + 1, logpageno := n } acc next = (eof, g') := by
    unfold vacuumSlot
    rw [hmid]
    exact hset
  have hother : ∀ b, b ≠ physical { level := level + 1, logpageno := n } → g'.pageAt b = g.pageAt b := by
    intro b hb
    rw [hwrote.pages, if_neg hb]
  have hspan := span_pos (level + 1)
  rw [hres]
  refine ⟨hwrote.valid, by rw [hend, hvac.nblocks, h.nblocks], ?_, ?_, ?_, ?_⟩
  · intro b hb
    rw [hother b (by omega), hvac.frame b (by omega), h.frame b hb]
  · intro k hk
    rw [pageOf, hother, ← h.bottoms k hk, ← hvac.bottoms k hk, pageOf]
    intro heq
    have := congrArg Addr.level (physical_inj (.inr (.inr ⟨rfl, hk⟩)) hin heq)
    exact absurd this (Nat.succ_ne_zero level).symm
  · intro htrue hlt
    have := child_before hin (show next < next + 1 by omega) hlt
    exact (heof htrue).trans (by omega)
  · intro slot hfirst hlt
    by_cases hs : slot = next
    · rw [hs]
      have hsame : g'.pageOf level (n * slotsPerPage + next) = g.pageOf level (n * slotsPerPage + next) :=
        hother _ (by omega)
      constructor
      · rw [hsame, ← hroot, pageOf, hwrote.pages, if_pos rfl, havail, if_pos rfl]
      · exact hvac.fresh.congr hchild fun b hb _ => hother b (by omega)
    · have hslot : slot < next := by omega
      have hbefore := child_before hin hslot hnext
      obtain ⟨hlow', -⟩ := child_within hin (hslot.trans hnext)
      have hpos := span_pos level
      obtain ⟨hval, hfresh⟩ := h.done slot hfirst hslot
      have hsame : ∀ b, physical { level := level, logpageno := n * slotsPerPage + slot } ≤ b →
          b < physical { level := level, logpageno := n * slotsPerPage + slot } + span level →
          g'.pageAt b = acc.2.pageAt b := by
        intro b hb hb'
        rw [hother b (by omega), hvac.frame b (by omega)]
      constructor
      · rw [show g'.pageOf level (n * slotsPerPage + slot) = acc.2.pageOf level (n * slotsPerPage + slot) from
          hsame _ (Nat.le_refl _) (by omega), ← hval, pageOf, hwrote.pages, if_pos rfl, havail, if_neg hs,
          hvac.frame _ (by omega)]
        rfl
      · exact hfresh.congr (inTree_child hin (Nat.succ_ne_zero level) (hslot.trans hnext)) hsame

/-- The slots from one to another vacuumed, one after the other. -/
theorem SlotsVacuumed.fold {start stop level n first : ℕ} {f : Fsm} {below : ℕ → Fsm → ℕ × Bool × Fsm}
    (hin : Addr.InTree { level := level + 1, logpageno := n })
    (hreach : physical { level := level + 1, logpageno := n } < f.nblocks)
    (hbelow : ∀ m g, g.Valid → Addr.InTree { level := level, logpageno := m } →
      Answered start stop level m g (below m g)) (count : ℕ) {next : ℕ} {acc : Bool × Fsm}
    (h : SlotsVacuumed start stop level n first next f acc) (hcount : next + count ≤ slotsPerPage) :
    SlotsVacuumed start stop level n first (next + count) f
      ((List.range' next count).foldl (vacuumSlot below { level := level + 1, logpageno := n }) acc) := by
  induction count generalizing next acc with
  | zero => exact h
  | succ count ih =>
    have hstep := h.step hin hreach hbelow (by omega)
    have hrest := ih hstep (by omega)
    rw [show next + (count + 1) = next + 1 + count by omega]
    exact hrest

theorem vacuumed_spec {f : Fsm} (hf : f.Valid) {addr : Addr} (hreach : physical addr < f.nblocks) :
    f.Wrote addr { f.pageAt (physical addr) with nextSlot := 0 } (f.vacuumed addr).2.2 ∧
      (f.vacuumed addr).2.2.nblocks = f.nblocks ∧ (f.vacuumed addr).2.1 = false ∧
      (f.vacuumed addr).1 = (f.pageAt (physical addr)).nodes 0 := by
  unfold vacuumed
  split
  · rename_i hread
    exact absurd (page_eq_none.mp hread) (Nat.not_le.mpr hreach)
  · rename_i p g hread
    obtain ⟨rfl, hwrote, hend⟩ := page_eq_some hf hread
    exact ⟨hwrote.put (hf.summed (physical addr)), hend rfl, rfl, rfl⟩

/-- The end of a page's vacuum, `g` being what the vacuum of its slots left of `f`. -/
theorem vacuumed_answered {start stop level n : ℕ} {f g : Fsm} (hg : g.Valid) (hnblocks : g.nblocks = f.nblocks)
    (hreach : physical { level := level, logpageno := n } < g.nblocks)
    (hframe : ∀ b, b < physical { level := level, logpageno := n } ∨
      physical { level := level, logpageno := n } + span level ≤ b → g.pageAt b = f.pageAt b)
    (hbottoms : ∀ k < slotsPerPage ^ 2, (g.pageOf 0 k).nodes = (f.pageOf 0 k).nodes)
    (hfresh : ∀ g' : Fsm, g'.pageOf level n = { g.pageOf level n with nextSlot := 0 } →
      (∀ b, b ≠ physical { level := level, logpageno := n } → g'.pageAt b = g.pageAt b) →
      Fresh start stop level n g') :
    Answered start stop level n f (g.vacuumed { level := level, logpageno := n }) := by
  obtain ⟨hwrote, hend, heof, hroot⟩ := vacuumed_spec hg hreach
  have hother : ∀ b, b ≠ physical { level := level, logpageno := n } →
      (g.vacuumed { level := level, logpageno := n }).2.2.pageAt b = g.pageAt b := by
    intro b hb
    rw [hwrote.pages, if_neg hb]
  have hown : (g.vacuumed { level := level, logpageno := n }).2.2.pageOf level n =
      { g.pageOf level n with nextSlot := 0 } := by
    rw [pageOf, hwrote.pages, if_pos rfl]
    rfl
  have hspan := span_pos level
  refine ⟨⟨hwrote.valid, hend.trans hnblocks, ?_, ?_, hfresh _ hown hother⟩, ?_, ?_⟩
  · intro b hb
    rw [hother b (by omega), hframe b hb]
  · intro k hk
    rw [← hbottoms k hk, pageOf, pageOf, hwrote.pages]
    split
    · rename_i heq
      rw [heq]
    · rfl
  · rw [hroot, hown]
    rfl
  · rw [heof]
    exact fun h => absurd h (by simp)

theorem vacuumPage_answered (start stop level : ℕ) : ∀ (n : ℕ) (f : Fsm), f.Valid →
    Addr.InTree { level := level, logpageno := n } →
    Answered start stop level n f (vacuumPage start stop level n f) := by
  induction level with
  | zero =>
    intro n f hf hin
    unfold vacuumPage
    dsimp only
    split
    · rename_i hread
      have hpast := page_eq_none.mp hread
      refine ⟨.refl_of_past hf hin hpast, ?_, fun _ => hpast⟩
      show 0 = (f.pageAt _).nodes 0
      rw [hf.pageAt_past hpast]
      rfl
    · rename_i p g hread
      obtain ⟨-, hwrote, hend⟩ := page_eq_some hf hread
      have hsame := page_same hf hread
      refine vacuumed_answered hwrote.valid (hend rfl) hwrote.reach (fun b _ => hsame b) ?_ ?_
      · intro k _
        rw [pageOf, hsame]
        rfl
      · intro g' hown _
        show (g'.pageOf 0 n).nextSlot = 0
        rw [hown]
  | succ level ih =>
    intro n f hf hin
    unfold vacuumPage
    dsimp only
    split
    · rename_i hread
      have hpast := page_eq_none.mp hread
      refine ⟨.refl_of_past hf hin hpast, ?_, fun _ => hpast⟩
      show 0 = (f.pageAt _).nodes 0
      rw [hf.pageAt_past hpast]
      rfl
    · rename_i p g hread
      obtain ⟨-, hwrote, hend⟩ := page_eq_some hf hread
      have hsame := page_same hf hread
      have hstopLe := stopSlot_le { level := level + 1, logpageno := n } stop
      generalize hfirst : startSlot { level := level + 1, logpageno := n } start = first
      generalize hlast : stopSlot { level := level + 1, logpageno := n } stop = last at hstopLe
      have hstart : SlotsVacuumed start stop level n first first f (false, g) := by
        refine ⟨hwrote.valid, hend rfl, fun b _ => hsame b, ?_, fun h => absurd h (by simp), ?_⟩
        · intro k _
          rw [pageOf, hsame]
          rfl
        · intro slot hge hlt
          omega
      have hreach : physical { level := level + 1, logpageno := n } < f.nblocks := by
        rw [← hend rfl]
        exact hwrote.reach
      by_cases hempty : last ≤ first
      · -- no slot of the page is visited
        rw [Nat.sub_eq_zero_of_le hempty]
        refine vacuumed_answered hstart.valid hstart.nblocks hwrote.reach hstart.frame hstart.bottoms ?_
        intro g' hown _
        refine ⟨by rw [hown], ?_⟩
        intro slot hge hlt
        omega
      · have hall := SlotsVacuumed.fold hin hreach ih (last - first) hstart (by omega)
        rw [show first + (last - first) = last by omega] at hall
        refine vacuumed_answered hall.valid hall.nblocks (by rw [hall.nblocks]; exact hreach) hall.frame
          hall.bottoms ?_
        intro g' hown hother
        refine ⟨by rw [hown], ?_⟩
        intro slot hge hlt
        rw [hfirst] at hge
        rw [hlast] at hlt
        have hslot : slot < slotsPerPage := by omega
        obtain ⟨hval, hfresh⟩ := hall.done slot hge hlt
        obtain ⟨hlow, -⟩ := child_within hin hslot
        constructor
        · rw [hown]
          refine hval.trans ?_
          rw [pageOf, pageOf, hother _ (by omega)]
        · exact hfresh.congr (inTree_child hin (Nat.succ_ne_zero level) hslot) fun b hb _ => hother b (by omega)

theorem vacuumRange_spec {f : Fsm} (hf : f.Valid) {start stop : ℕ} (hlt : start < stop) :
    Vacuumed start stop root.level root.logpageno f (f.vacuumRange start stop) := by
  unfold vacuumRange
  rw [if_pos hlt]
  exact (vacuumPage_answered start stop root.level root.logpageno f hf inTree_root).1

theorem Vacuumed.category {start stop level n : ℕ} {f g : Fsm} (h : Vacuumed start stop level n f g) {b : ℕ}
    (hb : b < blocksCovered) : g.category b = f.category b := by
  obtain ⟨-, -, hslots⟩ := FsmPage.sizes
  obtain ⟨hsq, hcov⟩ := covered_eq
  have hnodes := h.bottoms (b / slotsPerPage) (by rw [hsq, hslots]; omega)
  show (g.pageOf 0 (b / slotsPerPage)).getAvail _ = (f.pageOf 0 (b / slotsPerPage)).getAvail _
  rw [FsmPage.getAvail, hnodes]
  rfl

theorem forgets_vacuumRange {f : Fsm} (hf : f.Valid) (start stop : ℕ) : f.Forgets (f.vacuumRange start stop) := by
  by_cases hlt : start < stop
  · have h := vacuumRange_spec hf hlt
    exact ⟨h.valid, fun b hb => .inl (h.category hb)⟩
  · unfold vacuumRange
    rw [if_neg hlt]
    exact .refl hf

end Fsm

end Secantus.FreeSpace
