/-
  Runs of the map's operations, and what every run comes to.

  A run remembers the space last recorded for each block. The invariant is that each block's category in the bottom
  level is that of the space last recorded for it, or zero where the block was never recorded, or forgotten since. A
  block returned has a category that is not zero, so it was recorded with at least the space asked for.

  A vacuum of the blocks below one leaves every slot on the way from the root to those blocks with the value of the
  page below it. A search then goes down to the first bottom page that has enough, without a restart.
-/
import Secantus.FreeSpace.Vacuum
import Secantus.Library.Merge

namespace Secantus.FreeSpace

/-- The map's operations with their 32-bit arguments. -/
inductive Op where
  | record (heapBlk avail : UInt32)
  | recordAndGet (oldPage oldAvail needed heapBlocks : UInt32)
  | getPage (needed heapBlocks : UInt32)
  | truncate (nblocks : UInt32)
  | vacuumRange (start stop : UInt32)

/-- An operation's answer and the map it leaves. -/
def Fsm.exec (f : Fsm) : Op → Option ℕ × Fsm
  | .record b avail => (none, f.record b.toNat avail.toNat)
  | .recordAndGet b avail needed n => f.recordAndGet b.toNat avail.toNat needed.toNat n.toNat
  | .getPage needed n => f.getPage needed.toNat n.toNat
  | .truncate n => (none, f.truncate n.toNat)
  | .vacuumRange start stop => (none, f.vacuumRange start.toNat stop.toNat)

/-- The space last recorded for each block. -/
def noted (last : ℕ → Option ℕ) : Op → ℕ → Option ℕ
  | .record b avail => Function.update last b.toNat (some avail.toNat)
  | .recordAndGet b avail _ _ => Function.update last b.toNat (some avail.toNat)
  | _ => last

/-- A map with what was last recorded in it. -/
structure State where
  fsm : Fsm
  last : ℕ → Option ℕ

def start : State where
  fsm := .empty
  last := fun _ => none

def step (s : State) (op : Op) : State where
  fsm := (s.fsm.exec op).2
  last := noted s.last op

def run (ops : List Op) : State := ops.foldl step start

/-- Each block's category is that of the space last recorded for it, or zero. -/
structure Sound (s : State) : Prop where
  valid : s.fsm.Valid
  bounded : ∀ b a, s.last b = some a → b < 2 ^ 32
  recorded : ∀ b < blocksCovered, s.fsm.category b = 0 ∨
    ∃ a, s.last b = some a ∧ s.fsm.category b = availToCat a

theorem sound_start : Sound start :=
  ⟨Fsm.valid_empty, fun _ _ h => absurd h (by simp [start]), fun _ _ => .inl rfl⟩

theorem neededToCat_pos (needed : ℕ) : 0 < neededToCat needed := by
  unfold neededToCat catStep
  split <;> omega

theorem le_of_neededToCat_le {needed avail : ℕ} (hneeded : needed ≤ maxRequest)
    (h : neededToCat needed ≤ availToCat avail) : needed ≤ avail := by
  unfold maxRequest at hneeded
  unfold neededToCat availToCat maxRequest catStep at h
  split at h <;> split at h <;> omega

theorem lt_covered {b : ℕ} (hb : b < 2 ^ 32) : b < blocksCovered := by
  obtain ⟨-, hcov⟩ := covered_eq
  omega

theorem Sound.forgets {s : State} (hs : Sound s) {g : Fsm} (h : s.fsm.Forgets g) :
    Sound { fsm := g, last := s.last } := by
  refine ⟨h.valid, hs.bounded, ?_⟩
  intro b hb
  obtain heq | hzero := h.kept b hb
  · rw [heq]
    exact hs.recorded b hb
  · exact .inl hzero

theorem Sound.recordSlot {s : State} (hs : Sound s) (b avail : UInt32) (minvalue : ℕ) :
    Sound { fsm := (s.fsm.setAndSearch (location b.toNat).1 (location b.toNat).2 (availToCat avail.toNat) minvalue).2
            last := Function.update s.last b.toNat (some avail.toNat) } := by
  have hlt : b.toNat < 2 ^ 32 := b.toNat_lt
  obtain ⟨hvalid, hcat, -⟩ := Fsm.record_spec hs.valid (lt_covered hlt) avail.toNat minvalue
  refine ⟨hvalid, ?_, ?_⟩
  · intro c a hc
    have hc : Function.update s.last b.toNat (some avail.toNat) c = some a := hc
    by_cases hcb : c = b.toNat
    · rw [hcb]
      exact hlt
    · rw [Function.update_of_ne hcb] at hc
      exact hs.bounded c a hc
  · intro c hc
    show Fsm.category _ c = 0 ∨ ∃ a, Function.update s.last b.toNat (some avail.toNat) c = some a ∧ _
    rw [hcat c hc]
    by_cases hcb : c = b.toNat
    · rw [if_pos hcb, hcb, Function.update_self]
      exact .inr ⟨_, rfl, rfl⟩
    · rw [if_neg hcb, Function.update_of_ne hcb]
      exact hs.recorded c hc

/-- A block found in a sound map was last recorded with enough. -/
theorem Sound.found {s : State} (hs : Sound s) {needed heapBlocks blkno : ℕ} (hneeded : needed ≤ maxRequest)
    (h : s.fsm.Found (neededToCat needed) heapBlocks blkno) :
    blkno < heapBlocks ∧ ∃ a, s.last blkno = some a ∧ needed ≤ a := by
  obtain ⟨hlt, b, hb, rfl, hcat⟩ := h
  have hpos := neededToCat_pos needed
  obtain hzero | ⟨a, hlast, ha⟩ := hs.recorded b hb
  · omega
  · have hb32 := hs.bounded b a hlast
    rw [Nat.mod_eq_of_lt hb32] at hlt ⊢
    rw [ha] at hcat
    exact ⟨hlt, a, hlast, le_of_neededToCat_le hneeded hcat⟩

/-- Recording a block and searching, first its page and then from the root. -/
theorem Sound.recordAndGet {s : State} (hs : Sound s) (b avail needed n : UInt32) :
    Sound (step s (.recordAndGet b avail needed n)) ∧
      ∀ blkno, (s.fsm.exec (.recordAndGet b avail needed n)).1 = some blkno →
        (step s (.recordAndGet b avail needed n)).fsm.Found (neededToCat needed.toNat) n.toNat blkno := by
  have hmin := neededToCat_pos needed.toNat
  have hrec := hs.recordSlot b avail (neededToCat needed.toNat)
  obtain ⟨-, -, hfound⟩ := Fsm.record_spec hs.valid (lt_covered b.toNat_lt) avail.toNat (neededToCat needed.toNat)
  have hall : ∀ r : Option ℕ × Fsm, s.fsm.recordAndGet b.toNat avail.toNat needed.toNat n.toNat = r →
      Sound { fsm := r.2, last := Function.update s.last b.toNat (some avail.toNat) } ∧
        ∀ blkno, r.1 = some blkno → r.2.Found (neededToCat needed.toNat) n.toNat blkno := by
    intro r hr
    unfold Fsm.recordAndGet at hr
    dsimp only at hr
    generalize hset : s.fsm.setAndSearch (location b.toNat).1 (location b.toNat).2 (availToCat avail.toNat)
      (neededToCat needed.toNat) = set at hr hrec hfound
    obtain ⟨found, g⟩ := set
    obtain ⟨hforgets, hanswer⟩ := Fsm.search_answers hrec.valid hmin n.toNat
    cases found with
    | none =>
      rw [← hr]
      exact ⟨hrec.forgets hforgets, hanswer⟩
    | some slot =>
      dsimp only at hr
      split at hr
      · rename_i hlt
        rw [← hr]
        refine ⟨hrec, ?_⟩
        intro blkno hblk
        obtain rfl := Option.some.inj hblk
        obtain ⟨hslot, hval⟩ := hfound slot rfl
        obtain ⟨hin, hlevel, -⟩ := inTree_location (lt_covered b.toNat_lt)
        exact ⟨hlt, _, (Fsm.category_slot (f := g) hin hlevel hslot).1, rfl, hval⟩
      · rw [← hr]
        exact ⟨hrec.forgets hforgets, hanswer⟩
  exact hall _ rfl

theorem Sound.getPage {s : State} (hs : Sound s) (needed n : UInt32) :
    Sound (step s (.getPage needed n)) ∧
      ∀ blkno, (s.fsm.exec (.getPage needed n)).1 = some blkno →
        (step s (.getPage needed n)).fsm.Found (neededToCat needed.toNat) n.toNat blkno := by
  obtain ⟨hforgets, hanswer⟩ := Fsm.search_answers hs.valid (neededToCat_pos needed.toNat) n.toNat
  exact ⟨hs.forgets hforgets, hanswer⟩

theorem sound_step (s : State) (op : Op) (hs : Sound s) : Sound (step s op) := by
  cases op with
  | record b avail => exact hs.recordSlot b avail 0
  | recordAndGet b avail needed n => exact (hs.recordAndGet b avail needed n).1
  | getPage needed n => exact (hs.getPage needed n).1
  | truncate n => exact hs.forgets (Fsm.forgets_truncate hs.valid n.toNat)
  | vacuumRange from' stop => exact hs.forgets (Fsm.forgets_vacuumRange hs.valid from'.toNat stop.toNat)

theorem sound_run (ops : List Op) : Sound (run ops) :=
  Library.run_invariant step sound_step ops start sound_start

/-! ## After a vacuum -/

namespace Fsm

/-- A search that finds a slot of an upper page goes down to the page below it. -/
theorem searchFrom_down {minvalue heapBlocks : ℕ} {f : Fsm} {addr : Addr} {restarts slot : ℕ}
    (hfound : (f.look addr minvalue).1 = some slot) (hlevel : addr.level ≠ bottomLevel) :
    searchFrom minvalue heapBlocks f addr restarts =
      searchFrom minvalue heapBlocks (f.look addr minvalue).2.2 (child addr slot) restarts := by
  rw [searchFrom]
  simp only [hfound, Option.isSome_some, dif_pos, Option.getD_some]
  rw [dif_neg hlevel]

/-- A search that finds a slot of a bottom page returns its block, where that is below the heap's end. -/
theorem searchFrom_bottom {minvalue heapBlocks : ℕ} {f : Fsm} {addr : Addr} {restarts slot : ℕ}
    (hfound : (f.look addr minvalue).1 = some slot) (hlevel : addr.level = bottomLevel)
    (hlt : heapBlk addr slot < heapBlocks) :
    (searchFrom minvalue heapBlocks f addr restarts).1 = some (heapBlk addr slot) := by
  rw [searchFrom]
  simp only [hfound, Option.isSome_some, dif_pos, Option.getD_some]
  rw [dif_pos hlevel, if_pos hlt]

theorem startSlot_zero (addr : Addr) : startSlot addr 0 = 0 := by
  have hzero : ∀ level, ancestor 0 level = ({ level := level, logpageno := 0 }, 0) := by
    intro level
    induction level with
    | zero => simp [ancestor, location, bottomLevel]
    | succ level ih => simp [ancestor, ih, parent]
  unfold startSlot
  rw [hzero]
  dsimp only
  split
  · rfl
  · rw [if_neg (Nat.not_lt_zero _)]

/-- The slots up to that of the last block vacuumed are visited. -/
theorem lt_stopSlot {level n slot stop : ℕ} (hslot : slot < slotsPerPage)
    (h : n * slotsPerPage + slot ≤ (ancestor (stop - 1) level).1.logpageno) :
    slot < stopSlot { level := level + 1, logpageno := n } stop := by
  unfold stopSlot
  dsimp only [ancestor, parent]
  generalize (ancestor (stop - 1) level).1.logpageno = last at h ⊢
  have hpos : 0 < slotsPerPage := by omega
  have hsplit : slotsPerPage * (last / slotsPerPage) + last % slotsPerPage = last := Nat.div_add_mod last slotsPerPage
  have hle : n ≤ last / slotsPerPage := by
    rw [Nat.le_div_iff_mul_le hpos]
    omega
  split
  · rename_i heq
    rw [heq, Nat.mul_comm] at hsplit
    omega
  · rw [if_pos (by omega)]
    exact hslot

/-- Up to the last block vacuumed, a fresh page's slots have the values of the roots below. -/
theorem Fresh.slot {level n slot stop : ℕ} {g : Fsm} (h : Fresh 0 stop (level + 1) n g) (hslot : slot < slotsPerPage)
    (hle : n * slotsPerPage + slot ≤ (ancestor (stop - 1) level).1.logpageno) :
    (g.pageOf (level + 1) n).getAvail slot = (g.pageOf level (n * slotsPerPage + slot)).nodes 0 ∧
      Fresh 0 stop level (n * slotsPerPage + slot) g := by
  refine h.2 slot ?_ (lt_stopSlot hslot hle)
  rw [startSlot_zero]
  exact Nat.zero_le slot

/-- A look at a fresh page whose root has enough finds a slot, the first that has, and the page below it has enough too
and is fresh, where the slots up to the first that has are below the last block vacuumed. -/
theorem Fresh.look {level n stop minvalue : ℕ} {g g' : Fsm} (h : Fresh 0 stop (level + 1) n g) (hg' : g'.Valid)
    (hsame : g'.pageOf (level + 1) n = g.pageOf (level + 1) n) (hmin : 0 < minvalue)
    (hroot : minvalue ≤ (g.pageOf (level + 1) n).nodes 0)
    (hbound : ∀ slot < slotsPerPage, (∀ s < slot, (g.pageOf (level + 1) n).getAvail s < minvalue) →
      n * slotsPerPage + slot ≤ (ancestor (stop - 1) level).1.logpageno) :
    ∃ slot < slotsPerPage, (g'.look { level := level + 1, logpageno := n } minvalue).1 = some slot ∧
      (∀ s < slot, (g.pageOf (level + 1) n).getAvail s < minvalue) ∧
      minvalue ≤ (g.pageOf level (n * slotsPerPage + slot)).nodes 0 ∧
      Fresh 0 stop level (n * slotsPerPage + slot) g := by
  have hlook := look_looked hg' { level := level + 1, logpageno := n } hmin
  obtain ⟨slot, hfound⟩ := Option.isSome_iff_exists.mp (hlook.promised (by
    show minvalue ≤ (g'.pageOf (level + 1) n).nodes 0
    rw [hsame]
    exact hroot))
  obtain ⟨hslot, hval, hfirst⟩ := hlook.found slot hfound
  have hpage : g'.pageAt (physical { level := level + 1, logpageno := n }) = g.pageOf (level + 1) n := hsame
  rw [hpage] at hval hfirst
  have hbefore := hfirst h.1
  obtain ⟨hbelow, hfresh⟩ := h.slot hslot (hbound slot hslot hbefore)
  exact ⟨slot, hslot, hfound, hbefore, by rw [← hbelow]; exact hval, hfresh⟩

theorem child_root (slot : ℕ) : child root slot = { level := 1, logpageno := slot } := by
  simp [child, root, rootLevel, treeDepth]

/-- The upper slots above a block with enough have enough after a vacuum up to past it. -/
theorem Fresh.above {g : Fsm} (hg : g.Valid) {stop minvalue b : ℕ} (h : Fresh 0 stop 2 0 g) (hstop : stop < 2 ^ 32)
    (hb : b < stop) (hcat : minvalue ≤ g.category b) :
    minvalue ≤ (g.pageOf 2 0).getAvail (b / slotsPerPage / slotsPerPage) ∧
      minvalue ≤ (g.pageOf 1 (b / slotsPerPage / slotsPerPage)).getAvail (b / slotsPerPage % slotsPerPage) := by
  obtain ⟨-, -, hslots⟩ := FsmPage.sizes
  obtain ⟨hsq, hcov⟩ := covered_eq
  have hpage : b / slotsPerPage ≤ (ancestor (stop - 1) 0).1.logpageno := Nat.div_le_div_right (by omega)
  have hpage' : b / slotsPerPage / slotsPerPage ≤ (ancestor (stop - 1) 1).1.logpageno :=
    Nat.div_le_div_right hpage
  have hupperLt : b / slotsPerPage / slotsPerPage < slotsPerPage := by
    rw [hslots]
    omega
  have hslotLt : b / slotsPerPage % slotsPerPage < slotsPerPage := Nat.mod_lt _ (by omega)
  have hsplit : b / slotsPerPage / slotsPerPage * slotsPerPage + b / slotsPerPage % slotsPerPage =
      b / slotsPerPage := by
    rw [Nat.mul_comm]
    exact Nat.div_add_mod _ _
  obtain ⟨hrootSlot, hupper⟩ := h.slot hupperLt (by rw [Nat.zero_mul, Nat.zero_add]; exact hpage')
  rw [Nat.zero_mul, Nat.zero_add] at hrootSlot hupper
  obtain ⟨hupperSlot, -⟩ := hupper.slot hslotLt (by rw [hsplit]; exact hpage)
  have hval : minvalue ≤ (g.pageOf 1 (b / slotsPerPage / slotsPerPage)).getAvail (b / slotsPerPage % slotsPerPage) := by
    rw [hupperSlot, hsplit]
    exact hcat.trans (FsmPage.getAvail_le_root (hg.summed _) (inTree_location (by omega)).2.2)
  refine ⟨?_, hval⟩
  rw [hrootSlot]
  exact hval.trans (FsmPage.getAvail_le_root (hg.summed _) hslotLt)

/-- After a vacuum of all blocks up to one past the heap's end, no block at or past which has a category, a search
finds a block whenever there is one with enough. -/
theorem getPage_complete {f : Fsm} (hf : f.Valid) {stop heapBlocks needed b : ℕ} (hle : heapBlocks ≤ stop)
    (hstop : stop < 2 ^ 32) (hend : ∀ c < blocksCovered, heapBlocks ≤ c → f.category c = 0) (hb : b < blocksCovered)
    (hcat : neededToCat needed ≤ f.category b) :
    ∃ blkno, ((f.vacuumRange 0 stop).getPage needed heapBlocks).1 = some blkno := by
  have hmin := neededToCat_pos needed
  unfold getPage search
  generalize neededToCat needed = minvalue at hcat hmin ⊢
  have hheap : ∀ c < blocksCovered, minvalue ≤ f.category c → c < heapBlocks := by
    intro c hc hval
    by_contra hge
    have := hend c hc (Nat.le_of_not_lt hge)
    omega
  have hbs : b < stop := Nat.lt_of_lt_of_le (hheap b hb hcat) hle
  have hvac := vacuumRange_spec hf (show 0 < stop by omega)
  generalize f.vacuumRange 0 stop = g at hvac ⊢
  have hg := hvac.valid
  have hfresh : Fresh 0 stop 2 0 g := hvac.fresh
  have hcat' : minvalue ≤ g.category b := by
    rw [hvac.category hb]
    exact hcat
  obtain ⟨hrootVal, hupperVal⟩ := hfresh.above hg hstop hbs hcat'
  have hpage : b / slotsPerPage ≤ (ancestor (stop - 1) 0).1.logpageno := Nat.div_le_div_right (by omega)
  have hpage' : b / slotsPerPage / slotsPerPage ≤ (ancestor (stop - 1) 1).1.logpageno :=
    Nat.div_le_div_right hpage
  have hsplit : b / slotsPerPage / slotsPerPage * slotsPerPage + b / slotsPerPage % slotsPerPage =
      b / slotsPerPage := by
    rw [Nat.mul_comm]
    exact Nat.div_add_mod _ _
  have hupperLt : b / slotsPerPage / slotsPerPage < slotsPerPage := by
    obtain ⟨-, -, hslots⟩ := FsmPage.sizes
    rw [hslots]
    omega
  have hrootLe : ∀ slot, (∀ s < slot, (g.pageOf 2 0).getAvail s < minvalue) →
      slot ≤ b / slotsPerPage / slotsPerPage := by
    intro slot hfirst
    by_contra hgt
    exact absurd hrootVal (Nat.not_le.mpr (hfirst (b / slotsPerPage / slotsPerPage) (by omega)))
  -- at the root: a slot no later than the block's
  obtain ⟨p, hp, hfound, hfirst, hval, hfresh1⟩ := hfresh.look hg rfl hmin
    (hrootVal.trans (FsmPage.getAvail_le_root (hg.summed _) hupperLt))
    (fun slot _ hfirst => by
      have := hrootLe slot hfirst
      omega)
  have hfound : (g.look root minvalue).1 = some p := hfound
  rw [Nat.zero_mul, Nat.zero_add] at hval hfresh1
  have hlook := look_looked hg root hmin
  have hin := inTree_child inTree_root (by decide) hp
  rw [searchFrom_down hfound (by decide), child_root]
  rw [child_root] at hin
  have hg1 := hlook.valid
  have hsame1 : ∀ c, c ≠ physical root → (g.look root minvalue).2.2.pageAt c = g.pageAt c := hlook.others
  generalize (g.look root minvalue).2.2 = g1 at hg1 hsame1 ⊢
  -- at the upper page: a slot no later than the block's, where the page is that above the block
  have hbefore : ∀ slot < slotsPerPage, (∀ s < slot, (g.pageOf 1 p).getAvail s < minvalue) →
      p * slotsPerPage + slot ≤ b / slotsPerPage := by
    intro slot hslot hslotFirst
    have hple := hrootLe p hfirst
    by_cases hpp : p = b / slotsPerPage / slotsPerPage
    · have hle : slot ≤ b / slotsPerPage % slotsPerPage := by
        by_contra hgt
        rw [hpp] at hslotFirst
        exact absurd hupperVal (Nat.not_le.mpr (hslotFirst (b / slotsPerPage % slotsPerPage) (by omega)))
      rw [hpp]
      omega
    · have hnext : (p + 1) * slotsPerPage ≤ b / slotsPerPage / slotsPerPage * slotsPerPage :=
        Nat.mul_le_mul_right _ (by omega)
      rw [Nat.succ_mul] at hnext
      omega
  have hne : ∀ addr : Addr, addr.InTree → addr.level ≠ 2 → physical addr ≠ physical root := by
    intro addr haddr hlevel heq
    exact hlevel (congrArg Addr.level (physical_inj haddr inTree_root heq))
  obtain ⟨t, ht, hfound1, hfirst1, hval1, -⟩ := hfresh1.look hg1
    (hsame1 _ (hne _ hin (by simp))) hmin hval (fun slot hslot hslotFirst => (hbefore slot hslot hslotFirst).trans hpage)
  have hin1 := inTree_child hin (by simp) ht
  have hlook1 := look_looked hg1 { level := 1, logpageno := p } hmin
  rw [searchFrom_down hfound1 (by simp [bottomLevel])]
  have hchild : child { level := 1, logpageno := p } t = { level := 0, logpageno := p * slotsPerPage + t } := rfl
  rw [hchild] at hin1 ⊢
  have hg2 := hlook1.valid
  have hsame2 := hlook1.others
  generalize (g1.look { level := 0 + 1, logpageno := p } minvalue).2.2 = g2 at hg2 hsame2 ⊢
  -- at the bottom page: any slot with enough, whose block is below the heap's end
  have hlook2 := look_looked hg2 { level := 0, logpageno := p * slotsPerPage + t } hmin
  have hbottom : g2.pageAt (physical { level := 0, logpageno := p * slotsPerPage + t }) =
      g.pageOf 0 (p * slotsPerPage + t) := by
    rw [hsame2 _ fun heq => absurd (congrArg Addr.level (physical_inj hin1 hin heq)) (by simp),
      hsame1 _ (hne _ hin1 (by simp))]
    rfl
  obtain ⟨slot, hfound2⟩ := Option.isSome_iff_exists.mp (hlook2.promised (by rw [hbottom]; exact hval1))
  obtain ⟨hslot, hslotVal, -⟩ := hlook2.found slot hfound2
  rw [hbottom] at hslotVal
  obtain ⟨hcov, hslotCat⟩ := category_slot (f := g) hin1 rfl hslot
  have hlt : (p * slotsPerPage + t) * slotsPerPage + slot < heapBlocks := hheap _ hcov (by
    rw [← hvac.category hcov, hslotCat]
    exact hslotVal)
  have hblk : heapBlk { level := 0, logpageno := p * slotsPerPage + t } slot =
      (p * slotsPerPage + t) * slotsPerPage + slot := Nat.mod_eq_of_lt (by
    show (p * slotsPerPage + t) * slotsPerPage + slot < 2 ^ 32
    omega)
  exact ⟨_, searchFrom_bottom hfound2 rfl (by rw [hblk]; exact hlt)⟩

end Fsm

/-- In every map a run leaves, each page's inner nodes are the greatest of their children; a block returned then is
below the heap's end and was last recorded with the space asked for; and after a vacuum of all blocks, none recorded
at or past the heap's end having a category, a block is returned whenever one has enough. -/
theorem map_of_run (ops : List Op) :
    (∀ blkno, ((run ops).fsm.pageAt blkno).Summed) ∧
      (∀ op needed heapBlocks blkno,
        (op = .getPage needed heapBlocks ∨ ∃ b avail, op = .recordAndGet b avail needed heapBlocks) →
        needed.toNat ≤ maxRequest → ((run ops).fsm.exec op).1 = some blkno →
        blkno < heapBlocks.toNat ∧ ∃ avail, (run (ops ++ [op])).last blkno = some avail ∧ needed.toNat ≤ avail) ∧
      ∀ stop needed heapBlocks : UInt32, heapBlocks ≤ stop →
        (∀ b, heapBlocks.toNat ≤ b → b < 2 ^ 32 → (run ops).fsm.category b = 0) →
        (∃ b < 2 ^ 32, neededToCat needed.toNat ≤ (run ops).fsm.category b) →
        ∃ blkno, ((run (ops ++ [.vacuumRange 0 stop])).fsm.exec (.getPage needed heapBlocks)).1 = some blkno := by
  have hs := sound_run ops
  have happend : ∀ op, run (ops ++ [op]) = step (run ops) op := by
    intro op
    simp [run]
  refine ⟨hs.valid.summed, ?_, ?_⟩
  · intro op needed heapBlocks blkno hop hneeded hres
    rw [happend]
    have hboth : Sound (step (run ops) op) ∧
        (step (run ops) op).fsm.Found (neededToCat needed.toNat) heapBlocks.toNat blkno := by
      obtain rfl | ⟨b, avail, rfl⟩ := hop
      · obtain ⟨hsound, hfound⟩ := hs.getPage needed heapBlocks
        exact ⟨hsound, hfound blkno hres⟩
      · obtain ⟨hsound, hfound⟩ := hs.recordAndGet b avail needed heapBlocks
        exact ⟨hsound, hfound blkno hres⟩
    exact hboth.1.found hneeded hboth.2
  · intro stop needed heapBlocks hle hend ⟨b, hb, hcat⟩
    rw [happend]
    refine Fsm.getPage_complete hs.valid hle stop.toNat_lt ?_ (lt_covered hb) hcat
    intro c hc hge
    by_cases hlt : c < 2 ^ 32
    · exact hend c hge hlt
    · -- a block past 32 bits was never recorded
      obtain hzero | ⟨a, hlast, -⟩ := hs.recorded c hc
      · exact hzero
      · exact absurd (hs.bounded c a hlast) hlt

/-- One block recorded with 188 bytes, the map vacuumed and 32 bytes asked for. -/
theorem map_of_run_one_block :
    ∃ blkno avail, ((run [.record 0 188, .vacuumRange 0 1]).fsm.exec (.getPage 32 1)).1 = some blkno ∧ blkno < 1 ∧
      (run [.record 0 188, .vacuumRange 0 1, .getPage 32 1]).last blkno = some avail ∧ 32 ≤ avail := by
  have hcat : ∀ b < 2 ^ 32, (run [.record 0 188]).fsm.category b = if b = 0 then availToCat 188 else 0 := by
    intro b hb
    exact (Fsm.record_spec Fsm.valid_empty (lt_covered (by decide)) 188 0).2.1 b (lt_covered hb)
  obtain ⟨blkno, hblkno⟩ := (map_of_run [.record 0 188]).2.2 1 32 1 (by decide)
    (fun b hge hlt => by
      have hge : 1 ≤ b := hge
      rw [hcat b hlt, if_neg (by omega)])
    ⟨0, by decide, by rw [hcat 0 (by decide)]; decide⟩
  obtain ⟨hlt, avail, hlast, hle⟩ := (map_of_run [.record 0 188, .vacuumRange 0 1]).2.1 (.getPage 32 1) 32 1 blkno
    (.inl rfl) (by decide) hblkno
  exact ⟨blkno, avail, hblkno, hlt, hlast, hle⟩

end Secantus.FreeSpace
