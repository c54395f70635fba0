/-
  A relation's free space map: its pages by physical block, three levels of them in depth-first order, the slots of a
  page at an upper level standing for the roots of the pages below it and those of a bottom page for heap blocks.

  A bottom page is set by every record; the upper levels follow when a vacuum copies each page's root up, or when a
  search finds a page with less than its parent promised and corrects the parent. A search descends from the root and
  starts again there after a correction, or after a block past the heap's end, which it forgets. A block past the
  fork's end reads as a page of zeros, so does one below it that was never written.

  What the fork holds, block by block, and what a page read, written or searched leaves of that.

  No two pages of the tree share a physical block, so a page written changes no other page, and a page of an upper
  level written changes no heap block's category.
-/
import Secantus.FreeSpace.Page
import Mathlib.Data.List.Range

namespace Secantus.FreeSpace

/-- The levels of the tree. -/
def treeDepth : ℕ := 3

def rootLevel : ℕ := treeDepth - 1

def bottomLevel : ℕ := 0

/-- The restarts a search gives up after. -/
def maxRestarts : ℕ := 10000

structure Addr where
  level : ℕ
  logpageno : ℕ

def root : Addr := { level := rootLevel, logpageno := 0 }

/-- The sum a page's physical block is computed by: `leafno` and one, at each of `depth` levels. -/
def pagesBefore : ℕ → ℕ → ℕ
  | 0, _ => 0
  | depth + 1, leafno => leafno + 1 + pagesBefore depth (leafno / slotsPerPage)

def physical (addr : Addr) : ℕ :=
  pagesBefore treeDepth (addr.logpageno * slotsPerPage ^ addr.level) - addr.level - 1

def location (heapblk : ℕ) : Addr × ℕ :=
  ({ level := bottomLevel, logpageno := heapblk / slotsPerPage }, heapblk % slotsPerPage)

/-- The heap block of a bottom page's slot, a 32-bit number. -/
def heapBlk (addr : Addr) (slot : ℕ) : ℕ := (addr.logpageno * slotsPerPage + slot) % 2 ^ 32

def parent (child : Addr) : Addr × ℕ :=
  ({ level := child.level + 1, logpageno := child.logpageno / slotsPerPage }, child.logpageno % slotsPerPage)

def child (parent : Addr) (slot : ℕ) : Addr :=
  { level := parent.level - 1, logpageno := parent.logpageno * slotsPerPage + slot }

/-- The fork: its pages by physical block, its length and the pages read since the heap last took them. -/
structure Fsm where
  pages : ℕ → Option FsmPage
  nblocks : ℕ
  touched : List ℕ

namespace Fsm

/-- The fork of a new heap. -/
def empty : Fsm where
  pages := fun _ => none
  nblocks := 0
  touched := []

/-- The page stored at a block. -/
def pageAt (f : Fsm) (blkno : ℕ) : FsmPage := (f.pages blkno).getD .new

/-- A page written to its place. -/
def put (f : Fsm) (addr : Addr) (p : FsmPage) : Fsm :=
  { f with pages := Function.update f.pages (physical addr) (some p) }

/-- The page, if the fork reaches it or is extended to it, and the fork with the page entered. -/
def page (f : Fsm) (addr : Addr) (extend : Bool) : Option (FsmPage × Fsm) :=
  let blkno := physical addr
  if blkno ≥ f.nblocks ∧ extend = false then none
  else
    let p := f.pageAt blkno
    some (p, { pages := Function.update f.pages blkno (some p)
               nblocks := if blkno ≥ f.nblocks then blkno + 1 else f.nblocks
               touched := f.touched ++ [blkno] })

/-- A slot set, the fork extended to its page, and the page searched where `minvalue` is not zero. -/
def setAndSearch (f : Fsm) (addr : Addr) (slot value minvalue : ℕ) : Option ℕ × Fsm :=
  match f.page addr true with
  | none => (none, f)  -- never: the fork is extended
  | some (p, f) =>
    let p := p.setAvail slot value
    if minvalue ≠ 0 then
      let (found, p) := p.searchAvail minvalue (addr.level = bottomLevel)
      (found, f.put addr p)
    else (none, f.put addr p)

/-- A search's look at one page: the slot found there, the value of the page's root and the fork after. -/
def look (f : Fsm) (addr : Addr) (minvalue : ℕ) : Option ℕ × ℕ × Fsm :=
  match f.page addr false with
  | some (p, f) =>
    let (slot, p) := p.searchAvail minvalue (addr.level = bottomLevel)
    (slot, p.nodes 0, f.put addr p)
  | none => (none, 0, f)

/-- A slot of a page the fork reaches cleared. -/
def forget (f : Fsm) (addr : Addr) (slot : ℕ) : Fsm :=
  match f.page addr false with
  | some (p, f) => f.put addr (p.setAvail slot 0)
  | none => f

/-- The search, at the page `addr` and after `restarts` restarts: a block below `heapBlocks` with at least `minvalue`. -/
def searchFrom (minvalue heapBlocks : ℕ) (f : Fsm) (addr : Addr) (restarts : ℕ) : Option ℕ × Fsm :=
  let seen := f.look addr minvalue
  let f := seen.2.2
  if _hfound : seen.1.isSome then
    let slot := seen.1.getD 0
    if _hbottom : addr.level = bottomLevel then
      let blkno := heapBlk addr slot
      if blkno < heapBlocks then (some blkno, f)
      else
        -- a block past the relation's end: forgotten, and the search starts again
        let f := f.forget addr slot
        if _hagain : restarts + 1 > maxRestarts then (none, f)
        else searchFrom minvalue heapBlocks f root (restarts + 1)
    else searchFrom minvalue heapBlocks f (child addr slot) restarts
  else if addr.level = rootLevel then (none, f)
  else
    -- the parent promised more than this page has: it is corrected, and the search starts again
    let (p, pslot) := parent addr
    let f := (f.setAndSearch p pslot seen.2.1 0).2
    if _hagain : restarts + 1 > maxRestarts then (none, f)
    else searchFrom minvalue heapBlocks f root (restarts + 1)
termination_by (maxRestarts + 1 - restarts, addr.level)
decreasing_by
  · exact Prod.Lex.left _ _ (by omega)
  · exact Prod.Lex.right _ (Nat.sub_lt (Nat.pos_of_ne_zero ‹_›) Nat.one_pos)
  · exact Prod.Lex.left _ _ (by omega)

/-- A heap block of `heapBlocks` with at least the category `minvalue`. -/
def search (f : Fsm) (minvalue heapBlocks : ℕ) : Option ℕ × Fsm := searchFrom minvalue heapBlocks f root 0

def getPage (f : Fsm) (needed heapBlocks : ℕ) : Option ℕ × Fsm := f.search (neededToCat needed) heapBlocks

def recordAndGet (f : Fsm) (oldPage oldAvail needed heapBlocks : ℕ) : Option ℕ × Fsm :=
  let (addr, slot) := location oldPage
  let searchCat := neededToCat needed
  match f.setAndSearch addr slot (availToCat oldAvail) searchCat with
  | (some found, f) =>
    let blkno := heapBlk addr found
    if blkno < heapBlocks then (some blkno, f) else f.search searchCat heapBlocks
  | (none, f) => f.search searchCat heapBlocks

def record (f : Fsm) (heapBlk avail : ℕ) : Fsm :=
  let (addr, slot) := location heapBlk
  (f.setAndSearch addr slot (availToCat avail) 0).2

/-- The slots of a page the fork reaches cleared from `slot` on, where that is not the first. -/
def clearFrom (f : Fsm) (addr : Addr) (slot : ℕ) : Fsm :=
  if slot > 0 then
    match f.page addr false with
    | some (p, f) => f.put addr (p.truncateAvail slot)
    | none => f
  else f

/-- The slots of blocks from `nblocks` on cleared, and the pages past them dropped. -/
def truncate (f : Fsm) (nblocks : ℕ) : Fsm :=
  let (addr, slot) := location nblocks
  let keep := if slot > 0 then physical addr + 1 else physical addr
  let f := f.clearFrom addr slot
  if keep < f.nblocks then { f with nblocks := keep, pages := fun b => if b < keep then f.pages b else none } else f

/-- The page at `level` above a heap block, and the block's slot in it. -/
def ancestor (heapblk : ℕ) : ℕ → Addr × ℕ
  | 0 => location heapblk
  | level + 1 => parent (ancestor heapblk level).1

/-- The first slot of `addr` a vacuum of the blocks from `start` on visits. -/
def startSlot (addr : Addr) (start : ℕ) : ℕ :=
  let (fs, fsSlot) := ancestor start addr.level
  if fs.logpageno = addr.logpageno then fsSlot else if fs.logpageno > addr.logpageno then slotsPerPage else 0

/-- The end of the slots of `addr` a vacuum of the blocks before `stop` visits, one past the last of them. -/
def stopSlot (addr : Addr) (stop : ℕ) : ℕ :=
  let (fe, feSlot) := ancestor (stop - 1) addr.level
  if fe.logpageno = addr.logpageno then feSlot + 1 else if fe.logpageno > addr.logpageno then slotsPerPage else 0

/-- A slot of an upper page brought up to date from the page below it, which `below` vacuums and answers with its
root's value, and with whether the fork ends before it; past the fork's end every further slot is zero. -/
def vacuumSlot (below : ℕ → Fsm → ℕ × Bool × Fsm) (addr : Addr) (acc : Bool × Fsm) (slot : ℕ) : Bool × Fsm :=
  let (avail, childEof, f) := if acc.1 then (0, true, acc.2) else below (child addr slot).logpageno acc.2
  match f.page addr false with
  | none => (childEof, f)  -- never: the page was read before
  | some (p, f) => (childEof, if p.getAvail slot ≠ avail then f.put addr (p.setAvail slot avail) else f)

/-- The end of a page's vacuum: its next slot reset, its root's value the answer. -/
def vacuumed (f : Fsm) (addr : Addr) : ℕ × Bool × Fsm :=
  match f.page addr false with
  | none => (0, false, f)  -- never: the page was read before
  | some (p, f) => (p.nodes 0, false, f.put addr { p with nextSlot := 0 })

/-- A page and those below it vacuumed, for the heap blocks from `start` to `stop`. -/
def vacuumPage (start stop : ℕ) : ℕ → ℕ → Fsm → ℕ × Bool × Fsm
  | level, logpageno, f =>
    let addr : Addr := { level := level, logpageno := logpageno }
    match f.page addr false with
    | none => (0, true, f)
    | some (_, f) =>
      match level with
      | 0 => f.vacuumed addr
      | level + 1 =>
        let slots := List.range' (startSlot addr start) (stopSlot addr stop - startSlot addr start)
        (slots.foldl (vacuumSlot (vacuumPage start stop level) addr) (false, f)).2.vacuumed addr

def vacuumRange (f : Fsm) (start stop : ℕ) : Fsm :=
  if stop > start then (vacuumPage start stop root.level root.logpageno f).2.2 else f

end Fsm

/-! ## What the fork holds -/

/-- The addresses of the tree's pages. -/
def Addr.InTree (addr : Addr) : Prop :=
  (addr.level = 2 ∧ addr.logpageno = 0) ∨ (addr.level = 1 ∧ addr.logpageno < slotsPerPage) ∨
    (addr.level = 0 ∧ addr.logpageno < slotsPerPage ^ 2)

/-- The heap blocks the tree has slots for. -/
def blocksCovered : ℕ := slotsPerPage ^ 3

theorem covered_eq : slotsPerPage ^ 2 = 16556761 ∧ blocksCovered = 67369460509 := by decide

/-- A page's block in depth-first order. -/
theorem Addr.InTree.physical {addr : Addr} (h : addr.InTree) :
    (addr.level = 2 ∧ addr.logpageno = 0 ∧ physical addr = 0) ∨
      (addr.level = 1 ∧ addr.logpageno < 4069 ∧ physical addr = addr.logpageno * 4070 + 1) ∨
      (addr.level = 0 ∧ addr.logpageno < 16556761 ∧ physical addr = addr.logpageno + addr.logpageno / 4069 + 2) := by
  obtain ⟨-, -, hslots⟩ := FsmPage.sizes
  obtain ⟨hsq, -⟩ := covered_eq
  unfold FreeSpace.physical treeDepth pagesBefore pagesBefore pagesBefore pagesBefore
  obtain ⟨hl, hn⟩ | ⟨hl, hn⟩ | ⟨hl, hn⟩ := h
  · refine .inl ⟨hl, hn, ?_⟩
    rw [hl, hn]
    decide
  · refine .inr (.inl ⟨hl, by omega, ?_⟩)
    rw [hl, pow_one, hslots]
    omega
  · refine .inr (.inr ⟨hl, by omega, ?_⟩)
    rw [hl, pow_zero, hslots]
    omega

theorem physical_inj {a b : Addr} (ha : a.InTree) (hb : b.InTree) (h : physical a = physical b) : a = b := by
  have hlevel : a.level = b.level := by
    obtain ⟨hl, hn, hp⟩ | ⟨hl, hn, hp⟩ | ⟨hl, hn, hp⟩ := ha.physical <;>
      obtain ⟨hl', hn', hp'⟩ | ⟨hl', hn', hp'⟩ | ⟨hl', hn', hp'⟩ := hb.physical <;> omega
  have hpage : a.logpageno = b.logpageno := by
    obtain ⟨hl, hn, hp⟩ | ⟨hl, hn, hp⟩ | ⟨hl, hn, hp⟩ := ha.physical <;>
      obtain ⟨hl', hn', hp'⟩ | ⟨hl', hn', hp'⟩ | ⟨hl', hn', hp'⟩ := hb.physical <;> omega
  obtain ⟨_, _⟩ := a
  obtain ⟨_, _⟩ := b
  rw [Addr.mk.injEq]
  exact ⟨hlevel, hpage⟩

theorem inTree_location {b : ℕ} (hb : b < blocksCovered) :
    (location b).1.InTree ∧ (location b).1.level = 0 ∧ (location b).2 < slotsPerPage := by
  obtain ⟨-, -, hslots⟩ := FsmPage.sizes
  obtain ⟨hsq, hcov⟩ := covered_eq
  refine ⟨.inr (.inr ⟨rfl, ?_⟩), rfl, Nat.mod_lt _ (by omega)⟩
  show b / slotsPerPage < slotsPerPage ^ 2
  rw [hsq, hslots]
  omega

theorem inTree_root : root.InTree := .inl ⟨rfl, rfl⟩

theorem inTree_child {addr : Addr} (h : addr.InTree) (hlevel : addr.level ≠ 0) {slot : ℕ} (hslot : slot < slotsPerPage) :
    (child addr slot).InTree := by
  obtain ⟨-, -, hslots⟩ := FsmPage.sizes
  obtain ⟨hsq, -⟩ := covered_eq
  obtain ⟨hl, hn⟩ | ⟨hl, hn⟩ | ⟨hl, hn⟩ := h
  · refine .inr (.inl ⟨by rw [child, hl], ?_⟩)
    show addr.logpageno * slotsPerPage + slot < slotsPerPage
    rw [hn]
    omega
  · refine .inr (.inr ⟨by rw [child, hl], ?_⟩)
    show addr.logpageno * slotsPerPage + slot < slotsPerPage ^ 2
    rw [hsq, hslots]
    omega
  · exact absurd hl hlevel

theorem inTree_parent {addr : Addr} (h : addr.InTree) (hlevel : addr.level ≠ 2) :
    (parent addr).1.InTree ∧ (parent addr).1.level ≠ 0 ∧ (parent addr).2 < slotsPerPage := by
  obtain ⟨-, -, hslots⟩ := FsmPage.sizes
  obtain ⟨hsq, -⟩ := covered_eq
  refine ⟨?_, Nat.succ_ne_zero _, Nat.mod_lt _ (by omega)⟩
  obtain ⟨hl, hn⟩ | ⟨hl, hn⟩ | ⟨hl, hn⟩ := h
  · exact absurd hl hlevel
  · refine .inl ⟨by rw [parent, hl], ?_⟩
    show addr.logpageno / slotsPerPage = 0
    exact Nat.div_eq_of_lt hn
  · refine .inr (.inl ⟨by rw [parent, hl], ?_⟩)
    show addr.logpageno / slotsPerPage < slotsPerPage
    rw [hslots]
    omega

namespace Fsm

/-- Every page's inner nodes are right, and no page is stored past the fork's end. -/
structure Valid (f : Fsm) : Prop where
  summed : ∀ b, (f.pageAt b).Summed
  past : ∀ b, f.nblocks ≤ b → f.pages b = none

/-- The category the bottom level holds for a heap block. -/
def category (f : Fsm) (b : ℕ) : ℕ := (f.pageAt (physical (location b).1)).getAvail (location b).2

/-- `g` is `f` with the page `p` at `addr`, the fork perhaps extended. -/
structure Wrote (f : Fsm) (addr : Addr) (p : FsmPage) (g : Fsm) : Prop where
  valid : g.Valid
  nblocks : f.nblocks ≤ g.nblocks
  reach : physical addr < g.nblocks
  pages : ∀ b, g.pageAt b = if b = physical addr then p else f.pageAt b

/-- The heap blocks' categories in `g` are those in `f`, but that some may be forgotten. -/
structure Forgets (f g : Fsm) : Prop where
  valid : g.Valid
  kept : ∀ b < blocksCovered, g.category b = f.category b ∨ g.category b = 0

theorem valid_empty : empty.Valid := ⟨fun _ => FsmPage.summed_new, fun _ _ => rfl⟩

theorem Forgets.refl {f : Fsm} (hf : f.Valid) : f.Forgets f := ⟨hf, fun _ _ => .inl rfl⟩

theorem Forgets.trans {f g h : Fsm} (hfg : f.Forgets g) (hgh : g.Forgets h) : f.Forgets h := by
  refine ⟨hgh.valid, ?_⟩
  intro b hb
  obtain heq | hzero := hgh.kept b hb
  · rw [heq]
    exact hfg.kept b hb
  · exact .inr hzero

/-! ## Pages read and written -/

theorem page_eq_none {f : Fsm} {addr : Addr} : f.page addr false = none ↔ f.nblocks ≤ physical addr := by
  unfold page
  dsimp only
  split <;> simp_all

/-- A page read is the one stored, and the fork holds the same pages after. -/
theorem page_eq_some {f g : Fsm} (hf : f.Valid) {addr : Addr} {extend : Bool} {p : FsmPage}
    (h : f.page addr extend = some (p, g)) :
    p = f.pageAt (physical addr) ∧ f.Wrote addr p g ∧ (extend = false → g.nblocks = f.nblocks) := by
  unfold page at h
  dsimp only at h
  split at h
  · exact absurd h (by simp)
  · rename_i hreach
    simp only [Option.some.injEq, Prod.mk.injEq] at h
    obtain ⟨rfl, rfl⟩ := h
    have hpages : ∀ b, (Function.update f.pages (physical addr) (some (f.pageAt (physical addr))) b).getD .new =
        f.pageAt b := by
      intro b
      by_cases hb : b = physical addr
      · rw [hb, Function.update_self]
        rfl
      · rw [Function.update_of_ne hb]
        rfl
    have hend : f.nblocks ≤ (if physical addr ≥ f.nblocks then physical addr + 1 else f.nblocks) ∧
        physical addr < (if physical addr ≥ f.nblocks then physical addr + 1 else f.nblocks) := by
      split <;> omega
    refine ⟨rfl, ⟨⟨?_, ?_⟩, hend.1, hend.2, ?_⟩, ?_⟩
    · intro b
      show ((Function.update f.pages _ _ b).getD .new).Summed
      rw [hpages]
      exact hf.summed b
    · intro b hb
      have hb : (if physical addr ≥ f.nblocks then physical addr + 1 else f.nblocks) ≤ b := hb
      show Function.update f.pages _ _ b = none
      rw [Function.update_of_ne (by omega)]
      exact hf.past b (hend.1.trans hb)
    · intro b
      refine (hpages b).trans ?_
      split
      · rw [‹b = _›]
      · rfl
    · intro hext
      show (if physical addr ≥ f.nblocks then physical addr + 1 else f.nblocks) = f.nblocks
      rw [if_neg fun hge => hreach ⟨hge, hext⟩]

theorem page_same {f g : Fsm} (hf : f.Valid) {addr : Addr} {extend : Bool} {p : FsmPage}
    (h : f.page addr extend = some (p, g)) (b : ℕ) : g.pageAt b = f.pageAt b := by
  obtain ⟨rfl, hread, -⟩ := page_eq_some hf h
  rw [hread.pages]
  split
  · rw [‹b = _›]
  · rfl

theorem Wrote.put {f g : Fsm} {addr : Addr} {p : FsmPage} (h : f.Wrote addr p g) {q : FsmPage} (hq : q.Summed) :
    f.Wrote addr q (g.put addr q) := by
  have hpages : ∀ b, (g.put addr q).pageAt b = if b = physical addr then q else g.pageAt b := by
    intro b
    show (Function.update g.pages (physical addr) (some q) b).getD .new = _
    by_cases hb : b = physical addr
    · rw [hb, Function.update_self, if_pos rfl]
      rfl
    · rw [Function.update_of_ne hb, if_neg hb]
      rfl
  refine ⟨⟨?_, ?_⟩, h.nblocks, h.reach, ?_⟩
  · intro b
    rw [hpages]
    split
    · exact hq
    · exact h.valid.summed b
  · intro b hb
    have := h.reach
    have hb : g.nblocks ≤ b := hb
    show Function.update g.pages (physical addr) (some q) b = none
    rw [Function.update_of_ne (by omega)]
    exact h.valid.past b hb
  · intro b
    rw [hpages, h.pages]
    split <;> rfl

theorem Wrote.category_upper {f g : Fsm} {addr : Addr} {p : FsmPage} (h : f.Wrote addr p g) (haddr : addr.InTree)
    (hlevel : addr.level ≠ 0) {b : ℕ} (hb : b < blocksCovered) : g.category b = f.category b := by
  unfold category
  rw [h.pages, if_neg]
  intro heq
  obtain ⟨hin, hl, -⟩ := inTree_location hb
  have := physical_inj hin haddr heq
  rw [this] at hl
  exact hlevel hl

/-- A bottom page written with one slot set changes that block's category only. -/
theorem Wrote.category_bottom {f g : Fsm} {addr : Addr} {p : FsmPage} (h : f.Wrote addr p g) (haddr : addr.InTree)
    (hlevel : addr.level = 0) {slot value : ℕ}
    (hset : ∀ t, p.getAvail t = if t = slot then value else (f.pageAt (physical addr)).getAvail t) {b : ℕ}
    (hb : b < blocksCovered) (hslot : slot < slotsPerPage) :
    g.category b = if b = addr.logpageno * slotsPerPage + slot then value else f.category b := by
  have hpos : 0 < slotsPerPage := Nat.lt_of_le_of_lt (Nat.zero_le _) hslot
  have hsplit : slotsPerPage * (b / slotsPerPage) + b % slotsPerPage = b := Nat.div_add_mod b slotsPerPage
  obtain ⟨hin, hl, -⟩ := inTree_location hb
  unfold category
  rw [h.pages]
  by_cases hpage : physical (location b).1 = physical addr
  · rw [if_pos hpage, hset, hpage]
    have haddr' : (location b).1 = addr := physical_inj hin haddr hpage
    have hno : b / slotsPerPage = addr.logpageno := congrArg Addr.logpageno haddr'
    show (if b % slotsPerPage = slot then value else _) = _
    rw [hno, Nat.mul_comm] at hsplit
    by_cases hs : b % slotsPerPage = slot
    · rw [if_pos hs, if_pos (by rw [← hs, hsplit])]
    · rw [if_neg hs, if_neg (by omega)]
  · rw [if_neg hpage, if_neg]
    intro heq
    refine hpage (congrArg physical ?_)
    have hno : b / slotsPerPage = addr.logpageno := by
      rw [heq, Nat.mul_comm, Nat.mul_add_div hpos, Nat.div_eq_of_lt hslot, Nat.add_zero]
    show ({ level := 0, logpageno := b / slotsPerPage } : Addr) = addr
    rw [hno, ← hlevel]

end Fsm

end Secantus.FreeSpace
